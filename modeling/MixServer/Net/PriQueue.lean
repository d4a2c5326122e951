import MixServer.Lib.HeapTail
import MixServer.Net.TimerUpdate

/-!
`Pri_queue` (`timer.cpp`) over any implementation of the standard's heap
functions, which may even arrange the same range differently at different times.

`push` and `pop` keep the heap order. `remove` puts the last handle into the slot
that becomes free and calls `make_heap` for the range from there on, whose
elements are thereby arranged by positions they do not have.
`heap_order_iff` says in which runs the standard nevertheless promises that the
vector is a heap throughout: those in which at every `remove` the handles behind
the slot fit (`Lib.Heap.Fits`).
-/

namespace MixServer.Net

open Lib Lib.Heap

/-- What happens to a queue. -/
inductive QueueEvent where
  | pushed (t : Nat)
  | popped (t : Nat)
  | removed (t : Nat)
deriving DecidableEq, Repr

/-- `pop` on an empty vector and the assertion of `remove`. -/
inductive QueueAbort where
  | popEmpty
  | notFound
deriving DecidableEq, Repr

/-- The calls that change a queue. -/
inductive QueueCall where
  | push (t : Nat)
  | pop
  | remove (t : Nat)
deriving DecidableEq, Repr

/-- A `Pri_queue`; handles are the addresses of their objects. -/
structure PriQueue where
  minHeap : List Nat := []
  log : List QueueEvent := []
deriving DecidableEq, Repr

namespace PriQueue

variable (expired : Nat → Nat)

/-- `TimerCompare`, over the `expired` fields of the handles. -/
def cmp (p₁ p₂ : Nat) : Bool := expired p₁ > expired p₂

variable {expired} (std : StdHeap (cmp expired)) (q : PriQueue)

/-- `Pri_queue::push`. -/
def push (t : Nat) : PriQueue where
  minHeap := std.pushHeap (q.minHeap ++ [t])
  log := q.log ++ [.pushed t]

/-- `Pri_queue::top`; there is none in an empty queue. -/
def top : Option Nat := q.minHeap.head?

/-- `Pri_queue::pop`. -/
def pop : Except QueueAbort PriQueue :=
  match q.minHeap with
  | [] => .error .popEmpty
  | p :: _ => .ok { minHeap := (std.popHeap q.minHeap).dropLast, log := q.log ++ [.popped p] }

variable (expired) in
/-- `Pri_queue::get_min`. -/
def getMin : Nat :=
  match q.minHeap with
  | [] => 0
  | p :: _ => expired p

/-- `Pri_queue::remove`: `*find_it = min_heap.back()`, `pop_back()` and
`make_heap` from there on. -/
def remove (t : Nat) : Except QueueAbort PriQueue :=
  match q.minHeap.idxOf? t, q.minHeap.getLast? with
  | some i, some back =>
      let v := (q.minHeap.set i back).dropLast
      .ok { minHeap := v.take i ++ std.makeHeap (v.drop i), log := q.log ++ [.removed t] }
  | _, _ => .error .notFound

variable (expired) in
/-- The heap functions as each call finds them, which may depend on everything
that has happened. -/
abbrev Library := List QueueEvent → StdHeap (cmp expired)

/-- One call. -/
def step (std : Library expired) (q : PriQueue) : QueueCall → Except QueueAbort PriQueue
  | .push t => .ok (q.push (std q.log) t)
  | .pop => q.pop (std q.log)
  | .remove t => q.remove (std q.log) t

/-! ### What the queue is for -/

def pushed (log : List QueueEvent) : List Nat :=
  log.filterMap fun | .pushed t => some t | _ => none

/-- The handles that have left the queue. -/
def gone (log : List QueueEvent) : List Nat :=
  log.filterMap fun | .popped t => some t | .removed t => some t | _ => none

variable (expired) in
/-- A queue in order. -/
structure Good : Prop where
  /-- What is stored has been pushed and neither popped nor removed. -/
  stored : (q.minHeap ++ gone q.log).Perm (pushed q.log)
  heap : IsHeap (cmp expired) q.minHeap
  least : ∀ p ∈ q.top, q.getMin expired = expired p ∧ ∀ t ∈ q.minHeap, expired p ≤ expired t

variable (expired) in
/-- The handles behind the slot that a `remove` makes free fit. -/
def Keeps : QueueCall → Prop
  | .remove t => ∀ i ∈ q.minHeap.idxOf? t, Fits (cmp expired) q.minHeap i
  | _ => True

instance (c : QueueCall) : Decidable (q.Keeps expired c) := by
  unfold Keeps
  split <;> infer_instance

theorem strictWeak_cmp (expired : Nat → Nat) : StrictWeak (cmp expired) :=
  .of_key expired

variable {q} {std : Library expired}

/-- In a heap, the front expires no later than anything else. -/
theorem Good.of_heap (hstored : (q.minHeap ++ gone q.log).Perm (pushed q.log))
    (hheap : IsHeap (cmp expired) q.minHeap) : q.Good expired where
  stored := hstored
  heap := hheap
  least p hp := by
    cases hq : q.minHeap with
    | nil => simp [top, hq] at hp
    | cons f rest =>
      obtain rfl : f = p := by simpa [top, hq] using hp
      refine ⟨by rw [getMin, hq], ?_⟩
      intro t ht
      rw [hq] at hheap
      have hfront := hheap.front_le (strictWeak_cmp expired) ht
      simpa [cmp] using hfront

theorem good_empty : Good expired {} := .of_heap (List.Perm.refl _) isHeap_nil

/-! ### One call -/

theorem Good.push (h : q.Good expired) (s : StdHeap (cmp expired)) (t : Nat) :
    (q.push s t).Good expired := by
  obtain ⟨hperm, hheap⟩ := s.push_spec h.heap t
  refine .of_heap ?_ hheap
  have hall : (q.minHeap ++ [t] ++ gone q.log).Perm (pushed q.log ++ [t]) := by
    rw [List.append_assoc]
    exact (List.perm_append_comm.append_left _).trans
      (by rw [← List.append_assoc]; exact h.stored.append_right _)
  have hgone : gone (q.log ++ [.pushed t]) = gone q.log := by
    rw [gone, List.filterMap_append]
    exact List.append_nil _
  have hpushed : pushed (q.log ++ [.pushed t]) = pushed q.log ++ [t] := List.filterMap_append
  change (_ ++ gone (q.log ++ [_])).Perm (pushed (q.log ++ [_]))
  rw [hgone, hpushed]
  exact (hperm.append_right _).trans hall

/-- A handle leaves the queue. -/
theorem Good.leave (h : q.Good expired) {v : List Nat} {t : Nat} {e : QueueEvent}
    (hperm : (t :: v).Perm q.minHeap) (hheap : IsHeap (cmp expired) v) (hgone : gone [e] = [t])
    (hpushed : pushed [e] = []) : Good expired { minHeap := v, log := q.log ++ [e] } := by
  refine .of_heap ?_ hheap
  have hlog : gone (q.log ++ [e]) = gone q.log ++ [t] := by
    rw [gone, List.filterMap_append]
    exact congrArg _ hgone
  have hlog' : pushed (q.log ++ [e]) = pushed q.log := by
    rw [pushed, List.filterMap_append]
    exact (congrArg _ hpushed).trans (List.append_nil _)
  change (v ++ gone (q.log ++ [e])).Perm (pushed (q.log ++ [e]))
  rw [hlog, hlog', ← List.append_assoc]
  have hmove : (v ++ gone q.log ++ [t]).Perm (t :: v ++ gone q.log) :=
    List.perm_append_singleton t _
  exact hmove.trans ((hperm.append_right _).trans h.stored)

theorem Good.pop (h : q.Good expired) (s : StdHeap (cmp expired)) :
    Ensures (q.pop s) (Good expired) fun _ => True := by
  simp only [PriQueue.pop]
  cases hq : q.minHeap with
  | nil => trivial
  | cons p rest =>
    have hheap := h.heap
    rw [hq] at hheap
    obtain ⟨w, hpop, hperm, hw⟩ := s.pop_spec hheap
    rw [ensures_ok, hpop, List.dropLast_concat]
    refine h.leave ?_ hw rfl rfl
    rw [hq]
    exact hperm.cons p

/-- The slot is filled with the last element. -/
theorem set_dropLast_eq {v : List Nat} {i : Nat} (hi : i < v.length) (back : Nat) :
    (v.set i back).dropLast = v.take i ++ (back :: v.drop (i + 1)).dropLast := by
  rw [List.set_eq_take_append_cons_drop, if_pos hi, List.dropLast_append_cons]

/-- The elements from the slot on are those that were behind it. -/
theorem dropLast_perm {v : List Nat} {i back : Nat} (hback : v.getLast? = some back) :
    ((back :: v.drop (i + 1)).dropLast).Perm (v.drop (i + 1)) := by
  rcases List.eq_nil_or_concat (v.drop (i + 1)) with hnil | ⟨init, last, hlast⟩
  · rw [hnil]
    exact List.Perm.refl _
  · have hsame : last = back := by
      have hend : (v.drop (i + 1)).getLast? = some back := by
        rw [List.getLast?_drop, if_neg, hback]
        intro hle
        have hnil := List.drop_eq_nil_of_le hle
        rw [hlast, List.concat_eq_append] at hnil
        simp at hnil
      rw [hlast, List.concat_eq_append, List.getLast?_concat] at hend
      exact Option.some_inj.mp hend
    rw [hlast, hsame, List.concat_eq_append, ← List.cons_append, List.dropLast_concat]
    exact (List.perm_append_singleton back init).symm

/-- What `remove` leaves. -/
theorem remove_eq (s : StdHeap (cmp expired)) {t i back : Nat} (hi : q.minHeap.idxOf? t = some i)
    (hback : q.minHeap.getLast? = some back) :
    q.remove s t = .ok {
      minHeap := q.minHeap.take i ++ s.makeHeap (back :: q.minHeap.drop (i + 1)).dropLast
      log := q.log ++ [.removed t] } := by
  obtain ⟨hlen, -⟩ := List.idxOf?_eq_some_iff.mp hi
  have htake : (q.minHeap.take i).length = i := List.length_take_of_le hlen.le
  simp only [remove, hi, hback, set_dropLast_eq hlen]
  rw [List.take_left' htake, List.drop_left' htake]

/-- `remove` takes out the handle it is given; if those behind it fit, it leaves a
heap. -/
theorem remove_spec (s : StdHeap (cmp expired)) {t : Nat} (hheap : IsHeap (cmp expired) q.minHeap)
    (hkeeps : q.Keeps expired (.remove t)) :
    Ensures (q.remove s t)
      (fun q' => q'.log = q.log ++ [.removed t] ∧ (t :: q'.minHeap).Perm q.minHeap ∧
        IsHeap (cmp expired) q'.minHeap)
      fun _ => True := by
  cases hi : q.minHeap.idxOf? t with
  | none =>
    simp only [PriQueue.remove, hi]
    trivial
  | some i =>
    obtain ⟨hlen, hget, -⟩ := List.idxOf?_eq_some_iff.mp hi
    have hne : q.minHeap ≠ [] := List.ne_nil_of_length_pos (Nat.zero_lt_of_lt hlen)
    have hback := List.getLast?_eq_some_getLast hne
    obtain ⟨hperm, hw⟩ := s.make_spec (q.minHeap.getLast hne :: q.minHeap.drop (i + 1)).dropLast
    have htail := hperm.trans (dropLast_perm hback)
    rw [remove_eq s hi hback, ensures_ok]
    refine ⟨rfl, ?_, ?_⟩
    · have hwhole : q.minHeap.take i ++ t :: q.minHeap.drop (i + 1) = q.minHeap := by
        rw [← hget, List.getElem_cons_drop, List.take_append_drop]
      have hout : q.minHeap.Perm (t :: (q.minHeap.take i ++ q.minHeap.drop (i + 1))) := by
        nth_rw 1 [← hwhole]
        exact List.perm_middle
      exact ((htail.append_left _).cons t).trans hout.symm
    · exact (hkeeps i hi).isHeap (strictWeak_cmp expired) hheap hlen htail hw

theorem Good.remove (h : q.Good expired) (s : StdHeap (cmp expired)) {t : Nat}
    (hkeeps : q.Keeps expired (.remove t)) :
    Ensures (q.remove s t) (Good expired) fun _ => True := by
  apply (remove_spec s h.heap hkeeps).mono
  · rintro ⟨v, log⟩ ⟨hlog, hperm, hheap⟩
    cases hlog
    exact h.leave hperm hheap rfl rfl
  · exact fun _ hx => hx

/-- One call, under the condition of `remove`. -/
theorem step_good (c : QueueCall) (h : q.Good expired) (hkeeps : q.Keeps expired c) :
    Ensures (step std q c) (Good expired) fun _ => True := by
  cases c with
  | push t => exact h.push _ t
  | pop => exact h.pop _
  | remove t => exact h.remove _ hkeeps

/-! ### Runs -/

/-- A `remove` behind which the handles do not fit: some implementation, which
differs only in this one call, breaks the order. -/
theorem exists_broken {c : QueueCall} (hkeeps : ¬ q.Keeps expired c)
    (std : Library expired) :
    ∃ std' : Library expired, (∀ log, log ≠ q.log → std' log = std log) ∧
      ∃ q', step std' q c = .ok q' ∧ ¬ IsHeap (cmp expired) q'.minHeap := by
  cases c with
  | push t => exact absurd trivial hkeeps
  | pop => exact absurd trivial hkeeps
  | remove t =>
    simp only [Keeps, not_forall] at hkeeps
    obtain ⟨i, hi, hfits⟩ := hkeeps
    obtain ⟨hlen, -⟩ := List.idxOf?_eq_some_iff.mp hi
    have hne : q.minHeap ≠ [] := List.ne_nil_of_length_pos (Nat.zero_lt_of_lt hlen)
    have hback := List.getLast?_eq_some_getLast hne
    obtain ⟨w, hperm, hw, hbad⟩ := exists_not_isHeap (strictWeak_cmp expired) hlen hfits
    let tail := (q.minHeap.getLast hne :: q.minHeap.drop (i + 1)).dropLast
    let s : StdHeap (cmp expired) :=
      { std q.log with
        makeHeap := fun v => if v = tail then w else (std q.log).makeHeap v
        make_spec := fun v => by
          by_cases hv : v = tail
          · rw [if_pos hv, hv]
            exact ⟨hperm.trans (dropLast_perm hback).symm, hw⟩
          · rw [if_neg hv]
            exact (std q.log).make_spec v }
    refine ⟨Function.update std q.log s, fun log hlog => Function.update_of_ne hlog _ _, ?_⟩
    refine ⟨⟨q.minHeap.take i ++ s.makeHeap tail, q.log ++ [.removed t]⟩, ?_, ?_⟩
    · rw [step, Function.update_self]
      exact remove_eq s hi hback
    · change ¬ IsHeap _ (_ ++ if tail = tail then w else _)
      rwa [if_pos rfl]

/-- Every call that succeeds is logged. -/
theorem step_log (q : PriQueue) (c : QueueCall) :
    Ensures (step std q c) (fun q' => q'.log.length = q.log.length + 1) fun _ => True := by
  cases c with
  | push t => simp [step, push]
  | pop =>
    simp only [step, pop]
    split
    · trivial
    · simp
  | remove t =>
    simp only [step, remove]
    split
    · simp
    · trivial

/-- Implementations that agree on all shorter logs lead to the same queue. -/
theorem exec_congr {std' : Library expired} {n : Nat}
    (hstd : ∀ log, log.length < n → std' log = std log) {calls : List QueueCall} {q' : PriQueue}
    (hrun : exec (step std) q calls = .ok q') (hn : q'.log.length ≤ n) :
    exec (step std') q calls = .ok q' ∧ q.log.length ≤ q'.log.length := by
  induction calls generalizing q with
  | nil =>
    cases hrun
    exact ⟨rfl, Nat.le_refl _⟩
  | cons c calls ih =>
    obtain ⟨q₁, hstep, hrest⟩ := exec_cons_eq_ok.mp hrun
    obtain ⟨hrun', hle⟩ := ih hrest
    have hlog := (step_log q c).of_ok hstep
    have hsame : step std' q c = .ok q₁ := by
      rw [← hstep]
      cases c <;> simp only [step, hstd q.log (by omega)]
    rw [exec_cons_ok hsame]
    exact ⟨hrun', by omega⟩

/-- **When the timer queue stays a heap.** Whatever the implementation of the
heap functions, a run whose `remove` calls all meet the condition keeps exactly
the handles pushed and not yet popped or removed, in heap order, with a least
`expired` in front; and if a run does so with every implementation, its `remove`
calls all meet the condition. -/
theorem heap_order_iff (expired : Nat → Nat) (calls : List QueueCall) :
    (∀ std : Library expired, Every (step std) (Keeps expired) {} calls →
      AllReached (step std) (Good expired) {} calls) ∧
    ((∀ std : Library expired, AllReached (step std) (Good expired) {} calls) →
      ∀ std : Library expired, Every (step std) (Keeps expired) {} calls) := by
  constructor
  · intro std hkeeps
    exact allReached_of_every (fun q c hq hc => step_good c hq hc) good_empty hkeeps
  · intro hgood std
    apply every_of_split
    rintro pre c post rfl q hrun
    by_contra hkeeps
    obtain ⟨std', hstd, q', hstep, hbad⟩ := exists_broken hkeeps std
    obtain ⟨hrun', -⟩ := exec_congr (n := q.log.length)
      (fun log hlog => hstd log fun h => absurd hlog (by rw [h]; exact Nat.lt_irrefl _))
      hrun (Nat.le_refl _)
    have hpre : pre ++ [c] <+: pre ++ c :: post := ⟨post, (List.append_cons pre c post).symm⟩
    have hlast : exec (step std') {} (pre ++ [c]) = .ok q' := by
      rw [exec_append, hrun']
      exact (exec_singleton q c).trans hstep
    exact hbad (hgood std' _ hpre q' hlast).heap

/-- Six timers; the removal of the fourth moves the last one under a parent that
expires later. -/
theorem heap_order_remove :
    ¬ ∀ (expired : Nat → Nat) (std : Library expired) (calls : List QueueCall),
      AllReached (step std) (Good expired) {} calls := by
  intro h
  have hgood := h id (fun _ => libstdcxx (strictWeak_cmp id))
    [.push 1, .push 10, .push 2, .push 11, .push 12, .push 3, .remove 11] _ List.prefix_rfl _ rfl
  have hparent := hgood.heap 3 (by decide) (Nat.zero_le _)
  exact absurd hparent (by decide)

end PriQueue

/-! ### The queue of a `Timer` -/

namespace Timer

variable (tm : Timer)

/-- The queue that a timer keeps its handles in. -/
def pqueue (log : List QueueEvent) : PriQueue := ⟨tm.minHeap, log⟩

/-- What `Timer` does to its vector is what `Pri_queue` does with the heap
functions of libstdc++. -/
theorem pqueue_push (log : List QueueEvent) (h : Nat) :
    (tm.pqueue log).push (libstdcxx (strictWeak_cmp tm)) h =
      (tm.push h).pqueue (log ++ [.pushed h]) := rfl

theorem pqueue_pop {tm' : Timer} (log : List QueueEvent) (hpop : tm.pop = .ok tm') :
    ∃ p, (tm.pqueue log).pop (libstdcxx (strictWeak_cmp tm)) =
      .ok (tm'.pqueue (log ++ [.popped p])) := by
  cases hmin : tm.minHeap with
  | nil => simp [Timer.pop, hmin] at hpop
  | cons p rest =>
    simp only [Timer.pop, hmin] at hpop
    cases hpop
    refine ⟨p, ?_⟩
    have hlast : ((libstdcxx (strictWeak_cmp tm)).popHeap (p :: rest)).dropLast =
        popHeap tm.cmp (p :: rest) := List.dropLast_concat
    simp only [PriQueue.pop, pqueue, hmin]
    rw [← hlast]
    rfl

theorem pqueue_remove {tm' : Timer} (log : List QueueEvent) {h : Nat}
    (hrem : tm.remove h = .ok tm') :
    (tm.pqueue log).remove (libstdcxx (strictWeak_cmp tm)) h =
      .ok (tm'.pqueue (log ++ [.removed h])) := by
  simp only [Timer.remove] at hrem
  split at hrem
  · rename_i i back hi hback
    cases hrem
    simp only [PriQueue.remove, pqueue, hi, hback]
    rfl
  · cases hrem

end Timer

end MixServer.Net
