import MixServer.Net.Timer

/-!
Who leaves the timer queue, and why.

`Inv` ties the queue to the trace: what has been started and neither popped nor
cancelled is queued, and while a callback runs its handle is at the front. A
callback keeps its handle there unless it cancels that handle or starts a timer
that expires before it (`Keeps`), and then `pop` removes the handle that has just
run. `only_own_callback_or_end_timer` is the resulting account of every run; it
needs no heap order, so it also holds after `remove` has broken it.
-/

namespace MixServer.Net.Timer

open Lib Lib.Heap

variable {tm : Timer}

/-! ### What a callback must not do -/

/-- The call `e` leaves the handle of the callback that makes it at the front. -/
def Keeps (tr : List TimerEvent) (e : TimerEvent) : Prop :=
  match running tr, e with
  | some (some p), .cancelled h => h ≠ p
  | some (some p), .started now t h => h = p ∨ expiry tr p ≤ u32 (now + t)
  | _, _ => True

instance (tr : List TimerEvent) (e : TimerEvent) : Decidable (Keeps tr e) := by
  unfold Keeps
  split <;> infer_instance

/-- All calls of all callbacks do. -/
def Kept (tr : List TimerEvent) : Prop :=
  ∀ i, ∀ hi : i < tr.length, Keeps (tr.take i) tr[i]

instance (tr : List TimerEvent) : Decidable (Kept tr) :=
  inferInstanceAs (Decidable (∀ i, ∀ hi : i < tr.length, Keeps (tr.take i) tr[i]))

theorem kept_snoc {tr : List TimerEvent} {e : TimerEvent} :
    Kept (tr ++ [e]) ↔ Kept tr ∧ Keeps tr e := by
  constructor
  · intro h
    constructor
    · intro i hi
      have hi' : i < (tr ++ [e]).length := by simp; omega
      have hold := h i hi'
      rwa [List.take_append_of_le_length hi.le, List.getElem_append_left hi] at hold
    · have hlast := h tr.length (by simp)
      rwa [List.take_left', List.getElem_concat_length] at hlast
      · rfl
      · rfl
  · rintro ⟨h, he⟩ i hi
    rcases Nat.lt_or_ge i tr.length with hlt | hge
    · rw [List.take_append_of_le_length hlt.le, List.getElem_append_left hlt]
      exact h i hlt
    · obtain rfl : i = tr.length := by
        simp at hi
        omega
      rw [List.take_left' rfl, List.getElem_concat_length rfl]
      exact he

/-! ### The invariant -/

/-- The queue as the trace accounts for it, while the callback `r` runs. -/
structure Inv (r : Option Nat) (tm : Timer) : Prop where
  running : running tm.trace = some r
  front : ∀ p ∈ r, tm.minHeap.head? = some p
  account : (tm.minHeap ++ (popped tm.trace ++ cancelled tm.trace)).Perm (started tm.trace)
  expiries : ∀ h, tm.expired h = expiry tm.trace h

theorem inv_empty : Inv none {} where
  running := rfl
  front _ hp := by cases hp
  account := List.Perm.refl _
  expiries _ := rfl

variable {r : Option Nat} {p : Nat}

/-- What is queued or has been popped was started. -/
theorem Inv.mem_started (h : Inv r tm) {q : Nat} (hq : q ∈ tm.minHeap ∨ q ∈ popped tm.trace) :
    q ∈ started tm.trace := by
  apply h.account.subset
  rcases hq with hq | hq
  · exact List.mem_append_left _ hq
  · exact List.mem_append_right _ (List.mem_append_left _ hq)

theorem expired_startTimer (tm : Timer) (now t q x : Nat) : (tm.startTimer now t q).expired x =
    if q = x then u32 (now + t) else tm.expired x := by
  by_cases hx : q = x
  · subst hx
    simp [startTimer, push, expired]
  · simp [startTimer, push, expired, record, hx, Function.update_of_ne (Ne.symm hx)]

/-- `_start_timer`, from outside or in a callback that keeps its handle. -/
theorem Inv.startTimer (h : Inv r tm) {now t q : Nat}
    (hkeeps : Keeps tm.trace (.started now t q)) : Inv r (tm.startTimer now t q) := by
  have hperm : (tm.startTimer now t q).minHeap.Perm (q :: tm.minHeap) := pushHeap_perm _ _ _
  have hexpired := expired_startTimer tm now t q
  constructor
  · change Timer.running (tm.trace ++ [_]) = some r
    rw [running_snoc, h.running]
    cases r <;> rfl
  · intro p hp
    have hfront := h.front p hp
    cases hheap : tm.minHeap with
    | nil => simp [hheap] at hfront
    | cons f rest =>
      obtain rfl : f = p := by simpa [hheap] using hfront
      rw [List.head?_eq_getElem?]
      change (pushHeap (tm.startTimer now t q).cmp (tm.minHeap ++ [q]))[0]? = some f
      rw [hheap]
      apply pushHeap_front
      simp only [Keeps, h.running, Option.mem_def.mp hp, ← h.expiries] at hkeeps
      simp only [cmp, hexpired, if_true, decide_eq_false_iff_not, not_lt, gt_iff_lt]
      rcases hkeeps with rfl | hle
      · simp
      · split
        · exact Nat.le_refl _
        · exact hle
  · change (_ ++ (popped (tm.trace ++ [_]) ++ cancelled (tm.trace ++ [_]))).Perm
      (started (tm.trace ++ [.started now t q]))
    have hstarted : (q :: (tm.minHeap ++ (popped tm.trace ++ cancelled tm.trace))).Perm
        (started tm.trace ++ [q]) :=
      (h.account.cons q).trans (List.perm_append_singleton q _).symm
    simp only [started_append, popped_append, cancelled_append]
    simpa [started, popped, cancelled] using (hperm.append_right _).trans hstarted
  · intro x
    change _ = expiry (tm.trace ++ [.started now t q]) x
    rw [hexpired, expiry_snoc, h.expiries]

/-- `Pri_queue::remove` takes out the handle it is given, and only the front if
that is the handle. -/
theorem remove_spec (tm : Timer) (q : Nat) :
    Ensures (tm.remove q)
      (fun tm' => tm'.trace = tm.trace ∧ tm'.objs = tm.objs ∧
        (q :: tm'.minHeap).Perm tm.minHeap ∧
        ∀ p, p ≠ q → tm.minHeap.head? = some p → tm'.minHeap.head? = some p)
      (fun x => x = (.notQueued, tm)) := by
  simp only [remove]
  split
  · rename_i i back hi hback
    obtain ⟨hilen, hget, -⟩ := List.idxOf?_eq_some_iff.mp hi
    have hiq : tm.minHeap[i]? = some q := by
      rw [List.getElem?_eq_getElem hilen]
      exact congrArg some hget
    rw [ensures_ok]
    refine ⟨rfl, rfl, ?_, ?_⟩
    · have hmake := makeHeap_perm tm.cmp ((tm.minHeap.set i back).dropLast.drop i)
      have hparts := hmake.append_left ((tm.minHeap.set i back).dropLast.take i)
      rw [List.take_append_drop] at hparts
      exact (hparts.cons q).trans (set_dropLast_perm hiq hback)
    · intro p hpq hhead
      cases hheap : tm.minHeap with
      | nil => simp [hheap] at hhead
      | cons f rest =>
        obtain rfl : f = p := by simpa [hheap] using hhead
        cases i with
        | zero =>
          rw [hheap] at hiq
          exact absurd (by simpa using hiq) hpq
        | succ i =>
          cases rest with
          | nil => simp [hheap] at hiq
          | cons g rest =>
            have hne : (g :: rest).set i back ≠ [] := by simp
            obtain ⟨y, ys, hset⟩ := List.exists_cons_of_ne_nil hne
            simp [hset]
  · rfl

/-- `end_timer`, from outside or in a callback that keeps its handle. -/
theorem Inv.endTimer (h : Inv r tm) {q : Nat} (hkeeps : Keeps tm.trace (.cancelled q)) :
    Ensures (tm.endTimer q) (fun tm' => Inv r tm' ∧ tm'.trace = tm.trace ++ [.cancelled q])
      (fun x => x = (.notQueued, tm.record (.cancelled q))) := by
  have hrunning : Timer.running (tm.record (.cancelled q)).trace = some r := by
    change Timer.running (tm.trace ++ [_]) = some r
    rw [running_snoc, h.running]
    cases r <;> rfl
  apply (remove_spec (tm.record (.cancelled q)) q).mono
  · rintro tm' ⟨htrace, hobjs, hperm, hhead⟩
    refine ⟨?_, htrace⟩
    constructor
    · rw [htrace]
      exact hrunning
    · intro p hp
      apply hhead p
      · simp only [Keeps, h.running, Option.mem_def.mp hp] at hkeeps
        exact Ne.symm hkeeps
      · exact h.front p hp
    · rw [htrace]
      change (_ ++ (popped (tm.trace ++ [_]) ++ cancelled (tm.trace ++ [.cancelled q]))).Perm
        (started (tm.trace ++ [_]))
      have hmove : (tm'.minHeap ++ (popped tm.trace ++ (cancelled tm.trace ++ [q]))).Perm
          (q :: tm'.minHeap ++ (popped tm.trace ++ cancelled tm.trace)) := by
        rw [← List.append_assoc, ← List.append_assoc]
        exact (List.perm_append_singleton q _).trans (by rw [List.append_assoc]; rfl)
      have hold : (q :: tm'.minHeap ++ (popped tm.trace ++ cancelled tm.trace)).Perm
          (started tm.trace) := (hperm.append_right _).trans h.account
      simp only [started_append, popped_append, cancelled_append]
      simpa [started, popped, cancelled] using hmove.trans hold
    · intro x
      rw [expired, hobjs, htrace]
      change tm.expired x = expiry (tm.trace ++ [_]) x
      rw [expiry_snoc, h.expiries]
  · exact fun x hx => hx

/-- An event that touches no queue: a callback begins, or an `update`. -/
theorem Inv.record (h : Inv r tm) {e : TimerEvent} {r' : Option Nat} (hturn : turn r e = some r')
    (hfront : ∀ q ∈ r', tm.minHeap.head? = some q)
    (he : started [e] = [] ∧ popped [e] = [] ∧ cancelled [e] = []) : Inv r' (tm.record e) where
  running := by
    change Timer.running (tm.trace ++ [e]) = _
    rw [running_snoc, h.running]
    exact hturn
  front := hfront
  account := by
    change (tm.minHeap ++ (popped (tm.trace ++ [e]) ++ cancelled (tm.trace ++ [e]))).Perm
      (started (tm.trace ++ [e]))
    rw [popped_append, cancelled_append, started_append, he.1, he.2.1, he.2.2]
    simpa only [List.append_nil] using h.account
  expiries q := by
    have hkept : expiry (tm.trace ++ [e]) q = expiry tm.trace q :=
      expiry_append _ (by rw [he.1]; exact List.not_mem_nil)
    change tm.expired q = expiry (tm.trace ++ [e]) q
    rw [hkept, h.expiries]

/-- The callback of the front starts. -/
theorem Inv.fire (h : Inv none tm) (hfront : tm.minHeap.head? = some p) :
    Inv (some p) (tm.record (.fired p)) := by
  apply h.record rfl
  · rintro q ⟨⟩
    exact hfront
  · exact ⟨rfl, rfl, rfl⟩

/-- After the callback, `pop` removes its handle. -/
theorem Inv.pop (h : Inv (some p) tm) :
    ∃ tm', tm.pop = .ok tm' ∧ Inv none tm' ∧ tm'.trace = tm.trace ++ [.popped p] ∧
      tm'.objs = tm.objs ∧ tm'.minHeap = popHeap tm.cmp tm.minHeap ∧
      (p :: tm'.minHeap).Perm tm.minHeap := by
  have hfront := h.front p rfl
  cases hheap : tm.minHeap with
  | nil => simp [hheap] at hfront
  | cons f rest =>
    obtain rfl : f = p := by simpa [hheap] using hfront
    have hperm := popHeap_perm tm.cmp f rest
    refine ⟨{ tm.record (.popped f) with minHeap := popHeap tm.cmp (f :: rest) },
      by simp only [Timer.pop, hheap], ?_, rfl, rfl, rfl, hperm.cons f⟩
    constructor
    · change Timer.running (tm.trace ++ [_]) = _
      rw [running_snoc, h.running]
      exact if_pos rfl
    · intro q hq
      cases hq
    · change (_ ++ (popped (tm.trace ++ [.popped f]) ++ cancelled (tm.trace ++ [_]))).Perm
        (started (tm.trace ++ [_]))
      have hmove : (popHeap tm.cmp (f :: rest) ++
          (popped tm.trace ++ [f] ++ cancelled tm.trace)).Perm
          (f :: rest ++ (popped tm.trace ++ cancelled tm.trace)) := by
        rw [List.append_assoc, List.singleton_append]
        have hmid : (popped tm.trace ++ f :: cancelled tm.trace).Perm
            (f :: (popped tm.trace ++ cancelled tm.trace)) := List.perm_middle
        exact (hperm.append hmid).trans List.perm_middle
      have hold := h.account
      rw [hheap] at hold
      simp only [started_append, popped_append, cancelled_append]
      simpa [started, popped, cancelled] using hmove.trans hold
    · intro x
      change tm.expired x = expiry (tm.trace ++ [_]) x
      rw [expiry_snoc, h.expiries]

theorem Inv.beginUpdate (h : Inv none tm) (now : Nat) : Inv none (tm.record (.update now)) :=
  h.record rfl h.front ⟨rfl, rfl, rfl⟩

/-- The invariant rule of the loop: a round is the callback of the front and its removal. -/
theorem loop_ensures {script : List TimerEvent → List TimerCall} {now : Nat} {P : Timer → Prop}
    {E : TimerAbort × Timer → Prop} (hout : ∀ tm, P tm → E (.unfinished, tm))
    (hround : ∀ tm p, P tm → tm.minHeap.head? = some p →
      Ensures (tm.callback script p >>= pop) P E) (rounds : Nat) (h : P tm) :
    Ensures (loop script now rounds tm) P E := by
  induction rounds generalizing tm with
  | zero => exact hout tm h
  | succ rounds ih =>
    simp only [loop]
    split
    · exact h
    · rename_i p rest hheap
      split
      · have hfront : tm.minHeap.head? = some p := by rw [hheap]; rfl
        rw [← bind_assoc]
        exact (hround tm p h hfront).bind fun tm' h' => ih h'
      · exact h

/-! ### The trace only grows -/

theorem prefix_record {tr : List TimerEvent} (h : tr <+: tm.trace) (e : TimerEvent) :
    tr <+: (tm.record e).trace := h.trans (List.prefix_append _ _)

theorem call_extends {tr : List TimerEvent} (h : tr <+: tm.trace) (c : TimerCall) :
    Ensures (tm.call c) (fun tm' => tr <+: tm'.trace) fun _ => True := by
  cases c with
  | start now t q => exact prefix_record h (.started now t q)
  | cancel q =>
    apply (remove_spec (tm.record (.cancelled q)) q).mono
    · rintro tm' ⟨htrace, -⟩
      rw [htrace]
      exact prefix_record h (.cancelled q)
    · exact fun _ _ => trivial

theorem calls_extend {tr : List TimerEvent} (h : tr <+: tm.trace) (calls : List TimerCall) :
    Ensures (exec call tm calls) (fun tm' => tr <+: tm'.trace) fun _ => True :=
  exec_ensures (fun _ c htm => call_extends htm c) h calls

theorem pop_extends {tr : List TimerEvent} (h : tr <+: tm.trace) :
    Ensures tm.pop (fun tm' => tr <+: tm'.trace) fun _ => True := by
  simp only [pop]
  split
  · trivial
  · exact prefix_record h (.popped _)

theorem loop_extends (script : List TimerEvent → List TimerCall) (now rounds : Nat)
    {tr : List TimerEvent} (h : tr <+: tm.trace) :
    Ensures (loop script now rounds tm) (fun tm' => tr <+: tm'.trace) fun _ => True := by
  apply loop_ensures (P := fun tm => tr <+: tm.trace) (fun _ _ => trivial) _ rounds h
  intro tm p htm _
  exact (calls_extend (prefix_record htm (.fired p)) _).bind fun tm₁ h₁ => pop_extends h₁

theorem update_extends (script : List TimerEvent → List TimerCall) (rounds now : Nat)
    {tr : List TimerEvent} (h : tr <+: tm.trace) :
    Ensures (tm.update script rounds now) (fun tm' => tr <+: tm'.trace) fun _ => True := by
  simp only [update]
  split
  · exact h
  · exact loop_extends script now rounds (prefix_record h (.update now))

theorem run_extends (script : List TimerEvent → List TimerCall) (rounds : Nat)
    {tr : List TimerEvent} (h : tr <+: tm.trace) (acts : List TimerAction) :
    Ensures (exec (step script rounds) tm acts) (fun tm' => tr <+: tm'.trace) fun _ => True := by
  have hstep : ∀ tm act, tr <+: tm.trace →
      Ensures (step script rounds tm act) (fun tm' => tr <+: tm'.trace) fun _ => True := by
    intro tm act htm
    cases act with
    | call c => exact call_extends htm c
    | update now => exact update_extends script rounds now htm
  exact exec_ensures hstep h acts

/-! ### Runs -/

/-- The timer at the end of a computation, failed or not. -/
def Outcome.timer : Outcome → Timer
  | .ok tm => tm
  | .error (_, tm) => tm

/-- The account of a queue between the calls of `update`. -/
structure Accounted (tm : Timer) : Prop where
  /-- `pop` has always removed the handle whose callback had just run. -/
  paired : running tm.trace = some none
  account : (tm.minHeap ++ (popped tm.trace ++ cancelled tm.trace)).Perm (started tm.trace)
  /-- No timer is dropped. -/
  left : ∀ h ∈ started tm.trace, h ∈ tm.minHeap ∨ h ∈ fired tm.trace ∨ h ∈ cancelled tm.trace

theorem Inv.accounted (h : Inv none tm) : Accounted tm where
  paired := h.running
  account := h.account
  left q hq := by
    have hpopped : fired tm.trace = popped tm.trace := by
      simpa using fired_of_running h.running
    rw [hpopped]
    simpa using h.account.symm.subset hq

/-- The invariant, as long as all calls have kept their handles. -/
def Tracks (r : Option Nat) (tm : Timer) : Prop := Kept tm.trace → Inv r tm

/-- A failure is not an empty `pop`, as long as all calls have kept their
handles. -/
def Excused (x : TimerAbort × Timer) : Prop :=
  Kept x.2.trace → x.1 ≠ .popEmpty ∧ (Timer.running x.2.trace).isSome

theorem call_tracks (h : Tracks r tm) (c : TimerCall) :
    Ensures (tm.call c) (Tracks r) Excused := by
  cases c with
  | start now t q =>
    intro hkept
    obtain ⟨hold, hkeeps⟩ := kept_snoc.mp hkept
    exact (h hold).startTimer hkeeps
  | cancel q =>
    by_cases hkept : Kept (tm.trace ++ [.cancelled q])
    · obtain ⟨hold, hkeeps⟩ := kept_snoc.mp hkept
      apply ((h hold).endTimer hkeeps).mono
      · rintro tm' ⟨hinv, -⟩ -
        exact hinv
      · rintro x rfl -
        refine ⟨by simp, ?_⟩
        change (Timer.running (tm.trace ++ [_])).isSome
        rw [running_snoc, (h hold).running]
        cases r <;> rfl
    · apply (remove_spec (tm.record (.cancelled q)) q).mono
      · rintro tm' ⟨htrace, -⟩ hkept'
        rw [htrace] at hkept'
        exact absurd hkept' hkept
      · rintro x rfl hkept'
        exact absurd hkept' hkept

theorem pop_tracks (h : Tracks (some p) tm) : Ensures tm.pop (Tracks none) Excused := by
  by_cases hkept : Kept tm.trace
  · obtain ⟨tm', hpop, hinv, -⟩ := (h hkept).pop
    rw [hpop]
    exact fun _ => hinv
  · simp only [pop]
    split
    · exact fun hkept' => absurd hkept' hkept
    · exact fun hkept' => absurd (kept_snoc.mp hkept').1 hkept

variable {script : List TimerEvent → List TimerCall}

theorem callback_tracks (h : Tracks none tm) (hfront : tm.minHeap.head? = some p) :
    Ensures (tm.callback script p) (Tracks (some p)) Excused := by
  apply exec_ensures fun tm c htm => call_tracks htm c
  intro hkept
  exact (h (kept_snoc.mp hkept).1).fire hfront

theorem loop_tracks (now rounds : Nat) (h : Tracks none tm) :
    Ensures (loop script now rounds tm) (Tracks none) Excused := by
  apply loop_ensures (P := Tracks none) _ _ rounds h
  · intro tm htm hkept
    refine ⟨by simp, ?_⟩
    rw [(htm hkept).running]
    rfl
  · intro tm p htm hfront
    exact (callback_tracks htm hfront).bind fun tm₁ h₁ => pop_tracks h₁

theorem step_tracks (rounds : Nat) (h : Tracks none tm) (act : TimerAction) :
    Ensures (step script rounds tm act) (Tracks none) Excused := by
  cases act with
  | call c => exact call_tracks h c
  | update now =>
    simp only [step, update]
    split
    · exact h
    · apply loop_tracks
      intro hkept
      exact (h (kept_snoc.mp hkept).1).beginUpdate now

/-- **Cancelling removes that timer and no other**, in every run whose callbacks
neither cancel their own handle nor start a timer that expires before it. -/
theorem only_own_callback_or_end_timer (script : List TimerEvent → List TimerCall) (rounds : Nat)
    (acts : List TimerAction) {r : Outcome} (hr : exec (step script rounds) {} acts = r)
    (hkept : Kept r.timer.trace) :
    Ensures r Accounted fun x => x.1 ≠ .popEmpty ∧ (running x.2.trace).isSome := by
  have hstep : ∀ tm act, Tracks none tm →
      Ensures (step script rounds tm act) (Tracks none) Excused :=
    fun _ act htm => step_tracks rounds htm act
  have hrun := exec_ensures hstep (fun _ => inv_empty) acts
  rw [hr] at hrun
  cases r with
  | ok tm => exact (hrun hkept).accounted
  | error x => exact hrun hkept

/-- The first callback cancels another timer and starts a third one. -/
theorem only_own_callback_or_end_timer_others :
    ∃ r, exec (step (fun tr => if fired tr = [1] then [.cancel 2, .start 5 0 3] else []) 9) {}
        [.call (.start 0 5 1), .call (.start 0 9 2), .update 5] = r ∧
      Ensures r Accounted fun x => x.1 ≠ .popEmpty ∧ (running x.2.trace).isSome :=
  ⟨_, rfl, only_own_callback_or_end_timer _ _ _ rfl (by decide)⟩

/-- A callback that cancels its own handle: `pop` then removes the other timer,
which has neither fired nor been cancelled. -/
theorem only_own_callback_or_end_timer_self :
    ¬ ∀ (script : List TimerEvent → List TimerCall) (rounds : Nat) (acts : List TimerAction),
      Ensures (exec (step script rounds) {} acts) Accounted
        fun x => x.1 ≠ .popEmpty ∧ (running x.2.trace).isSome := by
  intro h
  have hrun := h (fun tr => if fired tr = [1] then [.cancel 1] else []) 9
    [.call (.start 0 5 1), .call (.start 0 9 2), .update 5]
  exact absurd hrun.paired (by decide)

end MixServer.Net.Timer
