import MixServer.Lib.Run
import MixServer.Lib.Heap
import Mathlib.Logic.Function.Basic

/-!
`Timer` (`timer.cpp`): handles in a `Pri_queue`, a vector kept by `std::push_heap`
and `std::pop_heap` with the smallest `expired` at the front, and `update`, which
runs the callbacks of the handles that are due.

A callback may start and cancel timers while its own handle is still at the
front of the queue; `pop` comes after it has returned. What callbacks do is a
`script`: the calls of the callback that is running, as a function of everything
that has happened so far. The readings of the clock come with the calls that
make them.
-/

namespace MixServer.Net

open Lib Lib.Heap

/-- `u32`. -/
def u32 (n : Nat) : Nat := n % 2 ^ 32

/-- The fields of a `TimerHandle` object. -/
structure TimerHandle where
  expired : Nat := 0
  timerId : Nat := 0
deriving DecidableEq, Repr

/-- What happens to a timer: a handle is started with a delay `t` at the clock
value `now`, cancelled by `end_timer`, run, or removed by `pop`. -/
inductive TimerEvent where
  | started (now t h : Nat)
  | cancelled (h : Nat)
  | update (now : Nat)
  | fired (h : Nat)
  | popped (h : Nat)
deriving DecidableEq, Repr

/-- `end_timer` of a handle that is not queued and `pop` on an empty vector; the
last one is a loop of `update` that has not come to its end. -/
inductive TimerAbort where
  | notQueued
  | popEmpty
  | unfinished
deriving DecidableEq, Repr

/-- A `Timer` with its `Pri_queue`; handles are the addresses of their objects. -/
structure Timer where
  maxId : Nat := 0
  objs : Nat → TimerHandle := fun _ => {}
  minHeap : List Nat := []
  trace : List TimerEvent := []

/-- The calls a callback can make. -/
inductive TimerCall where
  | start (now t h : Nat)
  | cancel (h : Nat)
deriving DecidableEq, Repr

namespace Timer

/-- A failure comes with the timer as it was. -/
abbrev Outcome := Except (TimerAbort × Timer) Timer

variable (tm : Timer)

def expired (h : Nat) : Nat := (tm.objs h).expired

def record (e : TimerEvent) : Timer := { tm with trace := tm.trace ++ [e] }

/-! ### `Pri_queue` -/

/-- `TimerCompare`. -/
def cmp (p₁ p₂ : Nat) : Bool := tm.expired p₁ > tm.expired p₂

/-- `Pri_queue::push`. -/
def push (h : Nat) : Timer := { tm with minHeap := pushHeap tm.cmp (tm.minHeap ++ [h]) }

/-- `Pri_queue::get_min`. -/
def getMin : Nat :=
  match tm.minHeap with
  | [] => 0
  | p :: _ => tm.expired p

/-- `Pri_queue::pop`; `pop_back` on an empty vector is undefined. -/
def pop : Outcome :=
  match tm.minHeap with
  | [] => .error (.popEmpty, tm)
  | p :: _ => .ok { tm.record (.popped p) with minHeap := popHeap tm.cmp tm.minHeap }

/-- `Pri_queue::remove`: the last element takes the place of the one that is
found, and `make_heap` runs from there to the end. -/
def remove (h : Nat) : Outcome :=
  match tm.minHeap.idxOf? h, tm.minHeap.getLast? with
  | some i, some back =>
      let v := (tm.minHeap.set i back).dropLast
      .ok { tm with minHeap := v.take i ++ makeHeap tm.cmp (v.drop i) }
  | _, _ => .error (.notQueued, tm)

/-! ### `Timer` -/

/-- `Timer::_start_timer`, which reads `now` from the clock. -/
def startTimer (now t h : Nat) : Timer :=
  let maxId := u32 (tm.maxId + 1)
  let tm := { tm.record (.started now t h) with
    maxId := maxId
    objs := Function.update tm.objs h { expired := u32 (now + t), timerId := maxId } }
  tm.push h

/-- `Timer::end_timer`. -/
def endTimer (h : Nat) : Outcome := (tm.record (.cancelled h)).remove h

/-- One call of a callback. -/
def call : Timer → TimerCall → Outcome
  | tm, .start now t h => .ok (tm.startTimer now t h)
  | tm, .cancel h => tm.endTimer h

variable (script : List TimerEvent → List TimerCall)

/-- `(*p)(get_this())`. -/
def callback (p : Nat) : Outcome :=
  let tm := tm.record (.fired p)
  exec call tm (script tm.trace)

/-- The loop of `Timer::update`, cut off after so many rounds. -/
def loop (now : Nat) : Nat → Timer → Outcome
  | 0, tm => .error (.unfinished, tm)
  | rounds + 1, tm =>
      match tm.minHeap with
      | [] => .ok tm
      | p :: _ =>
          if tm.getMin ≤ now then do
            let tm ← tm.callback script p
            let tm ← tm.pop
            loop now rounds tm
          else
            .ok tm

/-- `Timer::update`, which reads `now` from the clock. -/
def update (rounds now : Nat) : Outcome :=
  if tm.minHeap = [] then .ok tm else loop script now rounds (tm.record (.update now))

end Timer

/-- What the rest of the program does with the timer. -/
inductive TimerAction where
  | call (c : TimerCall)
  | update (now : Nat)
deriving DecidableEq, Repr

namespace Timer

/-- One call from outside. -/
def step (script : List TimerEvent → List TimerCall) (rounds : Nat) :
    Timer → TimerAction → Outcome
  | tm, .call c => tm.call c
  | tm, .update now => tm.update script rounds now

/-! ### Reading the trace -/

/-- The handles started. -/
def started (tr : List TimerEvent) : List Nat :=
  tr.filterMap fun | .started _ _ h => some h | _ => none

/-- The handles cancelled. -/
def cancelled (tr : List TimerEvent) : List Nat :=
  tr.filterMap fun | .cancelled h => some h | _ => none

/-- The handles whose callback has run. -/
def fired (tr : List TimerEvent) : List Nat :=
  tr.filterMap fun | .fired h => some h | _ => none

/-- The handles removed by `pop`. -/
def popped (tr : List TimerEvent) : List Nat :=
  tr.filterMap fun | .popped h => some h | _ => none

/-- The values read from the clock. -/
def readings (tr : List TimerEvent) : List Nat :=
  tr.filterMap fun | .started now _ _ => some now | .update now => some now | _ => none

/-- The expiry a handle was last given. -/
def expiry (tr : List TimerEvent) (h : Nat) : Nat :=
  tr.foldl (fun e ev =>
    match ev with
    | .started now t h' => if h' = h then u32 (now + t) else e
    | _ => e) 0

/-- The callback that is running after one more event, or none; there is no
answer where `pop` has removed another handle than the one that has just run. -/
def turn : Option Nat → TimerEvent → Option (Option Nat)
  | none, .fired p => some (some p)
  | some p, .popped q => if q = p then some none else none
  | none, .update _ => some none
  | r, .started _ _ _ => some r
  | r, .cancelled _ => some r
  | _, _ => none

/-- The callback that is running after these events. -/
def running (tr : List TimerEvent) : Option (Option Nat) := tr.foldlM turn none

section Trace

variable (tr tr' : List TimerEvent) (e : TimerEvent)

@[simp] theorem started_append : started (tr ++ tr') = started tr ++ started tr' :=
  List.filterMap_append

@[simp] theorem cancelled_append : cancelled (tr ++ tr') = cancelled tr ++ cancelled tr' :=
  List.filterMap_append

@[simp] theorem fired_append : fired (tr ++ tr') = fired tr ++ fired tr' :=
  List.filterMap_append

@[simp] theorem popped_append : popped (tr ++ tr') = popped tr ++ popped tr' :=
  List.filterMap_append

@[simp] theorem readings_append : readings (tr ++ tr') = readings tr ++ readings tr' :=
  List.filterMap_append

theorem expiry_snoc (h : Nat) : expiry (tr ++ [e]) h =
    match e with
    | .started now t h' => if h' = h then u32 (now + t) else expiry tr h
    | _ => expiry tr h := by
  simp only [expiry, List.foldl_append, List.foldl_cons, List.foldl_nil]

/-- Events that do not start a handle do not change its expiry. -/
theorem expiry_append {tr' : List TimerEvent} {h : Nat} (hh : h ∉ started tr') :
    expiry (tr ++ tr') h = expiry tr h := by
  induction tr' using List.reverseRecOn with
  | nil => rw [List.append_nil]
  | append_singleton tr' e ih =>
    rw [started_append, List.mem_append, not_or] at hh
    rw [← List.append_assoc, expiry_snoc, ih hh.1]
    cases e with
    | started now t q =>
      have hq : q ≠ h := by
        rintro rfl
        exact hh.2 (by simp [started])
      exact if_neg hq
    | cancelled _ => rfl
    | update _ => rfl
    | fired _ => rfl
    | popped _ => rfl

/-- A handle that is started once keeps the expiry it was given. -/
theorem expiry_started {tr : List TimerEvent} (hdistinct : (started tr).Nodup) {now t h : Nat}
    (hmem : .started now t h ∈ tr) : expiry tr h = u32 (now + t) := by
  obtain ⟨before, after, rfl⟩ := List.append_of_mem hmem
  rw [List.append_cons, started_append, started_append] at hdistinct
  have hafter : h ∉ started after := by
    intro hin
    exact (List.nodup_append.mp hdistinct).2.2 h (by simp [started]) h hin rfl
  rw [List.append_cons, expiry_append _ hafter, expiry_snoc]
  exact if_pos rfl

theorem running_snoc : running (tr ++ [e]) = (running tr).bind (turn · e) := by
  simp only [running, List.foldlM_append, List.foldlM_cons, List.foldlM_nil]
  cases List.foldlM turn none tr with
  | none => rfl
  | some r => exact bind_pure (turn r e)

/-- What `pop` has removed are the handles that have run, up to the one that is
still running. -/
theorem fired_of_running {tr : List TimerEvent} {r : Option Nat} (h : running tr = some r) :
    fired tr = popped tr ++ r.toList := by
  induction tr using List.reverseRecOn generalizing r with
  | nil =>
    cases h
    rfl
  | append_singleton tr e ih =>
    rw [running_snoc] at h
    obtain ⟨r', hr', hturn⟩ := Option.bind_eq_some_iff.mp h
    rw [fired_append, popped_append, ih hr']
    cases r' with
    | none =>
      cases e with
      | started _ _ _ => cases hturn; rfl
      | cancelled _ => cases hturn; rfl
      | update _ => cases hturn; rfl
      | fired p => cases hturn; simp [fired, popped]
      | popped _ => cases hturn
    | some p =>
      cases e with
      | started _ _ _ => cases hturn; simp [fired, popped]
      | cancelled _ => cases hturn; simp [fired, popped]
      | update _ => cases hturn
      | fired _ => cases hturn
      | popped q =>
        simp only [turn] at hturn
        split at hturn
        · rename_i hqp
          cases hturn
          simp [fired, popped, hqp]
        · cases hturn

end Trace

end Timer

end MixServer.Net
