import Mathlib.Logic.Function.Basic
import MixServer.Lib.Run

/-!
`iNotifyHandle` (`include/epoll.hpp`): the files that the loop watches.

A registration is a path with the handle whose `handle_modify` is called when the file
changes. The handle keeps two maps from watch descriptors, `watchs` and `handles`; an
`IN_IGNORED` says that the kernel has dropped a watch, and the path is added again.

The two maps always have the same keys. `kept_iff` says when no registration is lost:
`inotify_add_watch` must not fail, and must not return the descriptor of another
registration.
-/

namespace MixServer.Net

open Lib

/-- A path and the handle that `add_watch` gets; `none` is a null pointer. -/
abbrev Registration := String × Option Nat

/-- `struct inotify_event`. If the event makes the handle add its path again, `ret` is
what `inotify_add_watch` returns. -/
structure INotifyEvent where
  wd : Int
  mask : BitVec 32
  ret : Int
deriving DecidableEq, Repr

/-- The assertions of `handle_event`. -/
inductive INotifyAbort where
  /-- `watchs.find(wd)!=watchs.end()`. -/
  | watchs
  /-- `it!=handles.end()`. -/
  | handles
  /-- `phandle`. -/
  | phandle
deriving DecidableEq, Repr

def IN_ATTRIB : BitVec 32 := 0x00000004

def IN_IGNORED : BitVec 32 := 0x00008000

/-- The fields of `iNotifyHandle`; `modified` are the handles whose `handle_modify` was
called, in order. -/
structure INotify where
  watchs : Int → Option String := fun _ => none
  handles : Int → Option (Option Nat) := fun _ => none
  modified : List Nat := []

namespace INotify

abbrev Result := Except INotifyAbort INotify

variable (s : INotify)

/-- `add_watch`, where `inotify_add_watch` returns `wd`. -/
def addWatch (r : Registration) (wd : Int) : INotify :=
  if wd = -1 then
    s
  else
    { s with
      watchs := Function.update s.watchs wd (some r.1)
      handles := Function.update s.handles wd (some r.2) }

/-- `rm_watch`. -/
def rmWatch (wd : Int) : INotify :=
  if s.watchs wd ≠ none then
    { s with
      watchs := Function.update s.watchs wd none
      handles := Function.update s.handles wd none }
  else
    s

/-- The part of `handle_event` for `IN_ATTRIB`. -/
def handleAttrib (phandle : Option Nat) (e : INotifyEvent) : Result :=
  if e.mask &&& IN_ATTRIB ≠ 0 then
    match phandle with
    | none => .error .phandle
    | some h => .ok { s with modified := s.modified ++ [h] }
  else
    .ok s

/-- `handle_event`. -/
def handleEvent (e : INotifyEvent) : Result :=
  match s.watchs e.wd with
  | none => .error .watchs
  | some path =>
    match s.handles e.wd with
    | none => .error .handles
    | some phandle => do
      let s ← s.handleAttrib phandle e
      if e.mask &&& IN_IGNORED ≠ 0 then
        return (s.rmWatch e.wd).addWatch (path, phandle) e.ret
      else
        return s

/-- `handle_read`, on the events that `::read` has put into the buffer. -/
def handleRead (events : List INotifyEvent) : Result := exec handleEvent s events

end INotify

/-- What happens to the handle: `EventLoop::regist_file_handle`, where `inotify_add_watch`
returns `wd`, or a dispatch of the inotify descriptor. -/
inductive INotifyCall where
  | registFileHandle (r : Registration) (wd : Int)
  | handleRead (events : List INotifyEvent)
deriving DecidableEq, Repr

/-- One event of a buffer, or one registration. -/
inductive INotifyStep where
  | regist (r : Registration) (wd : Int)
  | event (e : INotifyEvent)
deriving DecidableEq, Repr

/-- The steps of a call. -/
def INotifyCall.steps : INotifyCall → List INotifyStep
  | .registFileHandle r wd => [.regist r wd]
  | .handleRead events => events.map .event

/-- The registrations that a sequence of steps made, in order. -/
def registered (past : List INotifyStep) : List Registration :=
  past.filterMap fun
    | .regist r _ => some r
    | .event _ => none

namespace INotify

def call (s : INotify) : INotifyCall → Result
  | .registFileHandle r wd => .ok (s.addWatch r wd)
  | .handleRead events => s.handleRead events

def step (s : INotify) : INotifyStep → Result
  | .regist r wd => .ok (s.addWatch r wd)
  | .event e => s.handleEvent e

/-- A dispatch is as good as its events. -/
theorem exec_events (s : INotify) (events : List INotifyEvent) :
    exec step s (events.map .event) = exec handleEvent s events := by
  induction events generalizing s with
  | nil => rfl
  | cons e events ih =>
    have hstep : step s (.event e) = s.handleEvent e := rfl
    cases hr : s.handleEvent e with
    | ok s' => rw [List.map_cons, exec_cons_ok (hstep.trans hr), exec_cons_ok hr, ih]
    | error x => rw [List.map_cons, exec_cons_error (hstep.trans hr), exec_cons_error hr]

/-- A run of calls is the run of their steps. -/
theorem exec_calls (s : INotify) (cs : List INotifyCall) :
    exec call s cs = exec step s (cs.flatMap INotifyCall.steps) := by
  induction cs generalizing s with
  | nil => rfl
  | cons c cs ih =>
    have hfirst : exec step s c.steps = call s c := by
      cases c with
      | registFileHandle r wd => exact exec_singleton s _
      | handleRead events => exact exec_events s events
    rw [List.flatMap_cons, exec_append, hfirst]
    cases hr : call s c with
    | ok s' =>
      rw [exec_cons_ok hr, ih]
      rfl
    | error x =>
      rw [exec_cons_error hr]
      rfl

/-! ### What is watched -/

variable {s s' : INotify} {r r' : Registration} {wd : Int}

/-- The registration under a watch descriptor. -/
def entry (s : INotify) (wd : Int) : Option Registration :=
  match s.watchs wd, s.handles wd with
  | some path, some phandle => some (path, phandle)
  | _, _ => none

/-- `watchs` and `handles` have the same keys. -/
def SameKeys (s : INotify) : Prop := ∀ wd, s.watchs wd = none ↔ s.handles wd = none

/-- The path is watched, with its own handle. -/
def Watched (s : INotify) (r : Registration) : Prop := ∃ wd, s.entry wd = some r

/-- The registration is watched, or some further events make the handle watch it again. -/
def Kept (s : INotify) (r : Registration) : Prop :=
  ∃ events s', s.handleRead events = .ok s' ∧ s'.Watched r

/-- A watch for `r` under `wd` is no loss: it was added, and replaces no entry but `r`'s own or
one that stands elsewhere as well. -/
def Fits (s : INotify) (r : Registration) (wd : Int) : Prop :=
  if wd = -1 then s.Watched r
  else ∀ r', s.entry wd = some r' → r' = r ∨ ∃ wd', wd' ≠ wd ∧ s.entry wd' = some r'

@[simp] theorem entry_addWatch (hwd : wd ≠ -1) (wd' : Int) :
    (s.addWatch r wd).entry wd' = if wd' = wd then some r else s.entry wd' := by
  by_cases h : wd' = wd
  · subst h
    simp [addWatch, entry, hwd]
  · simp [addWatch, entry, hwd, h]

@[simp] theorem entry_rmWatch (wd wd' : Int) :
    (s.rmWatch wd).entry wd' = if wd' = wd then none else s.entry wd' := by
  by_cases hnone : s.watchs wd = none
  · by_cases h : wd' = wd
    · subst h
      simp [rmWatch, entry, hnone]
    · simp [rmWatch, hnone, h]
  · by_cases h : wd' = wd
    · subst h
      simp [rmWatch, entry, hnone]
    · simp [rmWatch, entry, hnone, h]

theorem SameKeys.addWatch (h : SameKeys s) (r : Registration) (wd : Int) :
    SameKeys (s.addWatch r wd) := by
  intro wd'
  rw [INotify.addWatch]
  split
  · exact h wd'
  · by_cases heq : wd' = wd
    · subst heq
      simp
    · simpa [Function.update_of_ne heq] using h wd'

theorem SameKeys.rmWatch (h : SameKeys s) (wd : Int) : SameKeys (s.rmWatch wd) := by
  intro wd'
  rw [INotify.rmWatch]
  split
  · by_cases heq : wd' = wd
    · subst heq
      simp
    · simpa [Function.update_of_ne heq] using h wd'
  · exact h wd'

/-- `add_watch` brings in nothing but its own registration. -/
theorem Watched.of_addWatch (h : (s.addWatch r wd).Watched r') : r' = r ∨ s.Watched r' := by
  by_cases hwd : wd = -1
  · rw [addWatch, if_pos hwd] at h
    exact .inr h
  · obtain ⟨wd', hentry⟩ := h
    rw [entry_addWatch hwd] at hentry
    split at hentry
    · exact .inl (Option.some.inj hentry).symm
    · exact .inr ⟨wd', hentry⟩

/-- What is watched after `add_watch`, if it fits. -/
theorem watched_addWatch (hfits : s.Fits r wd) :
    (s.addWatch r wd).Watched r' ↔ r' = r ∨ s.Watched r' := by
  refine ⟨Watched.of_addWatch, ?_⟩
  by_cases hwd : wd = -1
  · rw [Fits, if_pos hwd] at hfits
    rw [addWatch, if_pos hwd]
    rintro (rfl | h)
    · exact hfits
    · exact h
  · rw [Fits, if_neg hwd] at hfits
    have hnew : (s.addWatch r wd).Watched r := ⟨wd, by simp [hwd]⟩
    rintro (rfl | ⟨wd', hentry⟩)
    · exact hnew
    · by_cases heq : wd' = wd
      · subst heq
        rcases hfits r' hentry with rfl | ⟨wd'', hne, helse⟩
        · exact hnew
        · exact ⟨wd'', by simp [hwd, hne, helse]⟩
      · exact ⟨wd', by simp [hwd, heq, hentry]⟩

/-- What does not fit is lost, or makes the handle lose another registration. -/
theorem lost_addWatch (hfits : ¬ s.Fits r wd) :
    ∃ r', (r' = r ∨ s.Watched r') ∧ ¬ (s.addWatch r wd).Watched r' := by
  by_cases hwd : wd = -1
  · rw [Fits, if_pos hwd] at hfits
    refine ⟨r, .inl rfl, ?_⟩
    simpa [addWatch, hwd] using hfits
  · rw [Fits, if_neg hwd] at hfits
    simp only [not_forall, not_or, not_exists, not_and] at hfits
    obtain ⟨r', hentry, hne, hnowhere⟩ := hfits
    refine ⟨r', .inr ⟨wd, hentry⟩, ?_⟩
    rintro ⟨wd', hentry'⟩
    rw [entry_addWatch hwd] at hentry'
    split at hentry'
    · exact hne (Option.some.inj hentry').symm
    · rename_i hwd'
      exact hnowhere wd' hwd' hentry'

/-- `rm_watch` leaves the other registrations. -/
theorem watched_rmWatch (hentry : s.entry wd = some r) :
    r' = r ∨ (s.rmWatch wd).Watched r' ↔ r' = r ∨ s.Watched r' := by
  constructor
  · rintro (rfl | ⟨wd', hentry'⟩)
    · exact .inl rfl
    · rw [entry_rmWatch] at hentry'
      split at hentry'
      · cases hentry'
      · exact .inr ⟨wd', hentry'⟩
  · rintro (rfl | ⟨wd', hentry'⟩)
    · exact .inl rfl
    · by_cases heq : wd' = wd
      · subst heq
        exact .inl (Option.some.inj (hentry'.symm.trans hentry))
      · exact .inr ⟨wd', by rw [entry_rmWatch, if_neg heq, hentry']⟩

/-! ### Events -/

variable {e : INotifyEvent}

/-- The event is one of `r`, and none of the assertions of `handle_event` fails. -/
def Handles (s : INotify) (e : INotifyEvent) (r : Registration) : Prop :=
  s.entry e.wd = some r ∧ (e.mask &&& IN_ATTRIB ≠ 0 → r.2 ≠ none)

/-- The handle after an event of `r`; `modified` are the handles called so far. -/
def after (s : INotify) (e : INotifyEvent) (r : Registration) (modified : List Nat) : INotify :=
  let s := { s with modified := modified }
  if e.mask &&& IN_IGNORED ≠ 0 then (s.rmWatch e.wd).addWatch r e.ret else s

theorem entry_eq_some (hentry : s.entry wd = some r) :
    s.watchs wd = some r.1 ∧ s.handles wd = some r.2 := by
  rw [entry] at hentry
  split at hentry
  · rename_i hwatchs hhandles
    cases hentry
    exact ⟨hwatchs, hhandles⟩
  · cases hentry

theorem handleEvent_eq (h : s.Handles e r) :
    ∃ modified, s.handleEvent e = .ok (s.after e r modified) := by
  obtain ⟨hwatchs, hhandles⟩ := entry_eq_some h.1
  have hattrib : ∃ modified, s.handleAttrib r.2 e = .ok { s with modified := modified } := by
    simp only [handleAttrib]
    split
    · rename_i hbit
      cases hr : r.2 with
      | none => exact absurd hr (h.2 hbit)
      | some handle => exact ⟨_, rfl⟩
    · exact ⟨s.modified, rfl⟩
  obtain ⟨modified, hattrib⟩ := hattrib
  refine ⟨modified, ?_⟩
  simp only [handleEvent, hwatchs, hhandles, hattrib, ok_bind, after]
  split <;> rfl

/-- Any other event ends the process. -/
theorem handleEvent_error (h : ∀ r, ¬ s.Handles e r) : ∃ x, s.handleEvent e = .error x := by
  simp only [handleEvent]
  split
  · exact ⟨_, rfl⟩
  · rename_i path hwatchs
    split
    · exact ⟨_, rfl⟩
    · rename_i phandle hhandles
      have hentry : s.entry e.wd = some (path, phandle) := by simp [entry, hwatchs, hhandles]
      obtain ⟨hbit, rfl⟩ : e.mask &&& IN_ATTRIB ≠ 0 ∧ phandle = none := by
        simpa [Handles, hentry] using h (path, phandle)
      have hfails : s.handleAttrib none e = .error .phandle := by
        simp only [handleAttrib, if_pos hbit]
      exact ⟨.phandle, by rw [hfails, error_bind]⟩

theorem SameKeys.handleEvent (h : SameKeys s) (e : INotifyEvent) :
    Ensures (s.handleEvent e) SameKeys fun _ => True := by
  by_cases hhandles : ∃ r, s.Handles e r
  · obtain ⟨r, hr⟩ := hhandles
    obtain ⟨modified, heq⟩ := handleEvent_eq hr
    have hset : SameKeys { s with modified := modified } := h
    rw [heq, ensures_ok, after]
    split
    · exact (hset.rmWatch _).addWatch _ _
    · exact hset
  · obtain ⟨x, heq⟩ := handleEvent_error (not_exists.mp hhandles)
    rw [heq]
    trivial

/-- An event brings in no registration that was not there. -/
theorem Watched.of_handleEvent (heq : s.handleEvent e = .ok s') (h : s'.Watched r) :
    s.Watched r := by
  by_cases hhandles : ∃ r, s.Handles e r
  · obtain ⟨r', hr'⟩ := hhandles
    obtain ⟨modified, hafter⟩ := handleEvent_eq hr'
    obtain rfl := Except.ok.inj (heq.symm.trans hafter)
    have hown : s.Watched r' := ⟨e.wd, hr'.1⟩
    rw [after] at h
    split at h
    · have hentry : entry { s with modified := modified } e.wd = some r' := hr'.1
      rcases (watched_rmWatch hentry).mp h.of_addWatch with rfl | hs
      · exact hown
      · exact hs
    · exact h
  · obtain ⟨x, herror⟩ := handleEvent_error (not_exists.mp hhandles)
    cases heq.symm.trans herror

/-- Nothing but another registration brings back what is not watched. -/
theorem kept_iff_watched : s.Kept r ↔ s.Watched r := by
  constructor
  · rintro ⟨events, s', hrun, hwatched⟩
    have hback : Ensures (exec handleEvent s events)
        (fun s' : INotify => s'.Watched r → s.Watched r) fun _ => True := by
      refine exec_ensures (I := fun s' : INotify => s'.Watched r → s.Watched r) ?_ id events
      intro s₁ e h
      cases hr : s₁.handleEvent e with
      | ok s₂ =>
        intro h₂
        exact h (Watched.of_handleEvent hr h₂)
      | error x => trivial
    exact hback.of_ok hrun hwatched
  · intro h
    exact ⟨[], s, rfl, h⟩

/-! ### Runs -/

/-- `inotify_add_watch` does not fail in the step, nor return the descriptor of another
registration that is watched under no other. -/
def Fitting (s : INotify) : INotifyStep → Prop
  | .regist r wd => s.Fits r wd
  | .event e => e.mask &&& IN_IGNORED ≠ 0 → ∀ r, s.Handles e r → (s.rmWatch e.wd).Fits r e.ret

/-- The two maps have the same keys, and each registration so far is watched or retried. -/
def NothingLost (past : List INotifyStep) (s : INotify) : Prop :=
  SameKeys s ∧ ∀ r ∈ registered past, s.Kept r

/-- Exactly the registrations so far are watched. -/
structure Steady (past : List INotifyStep) (s : INotify) : Prop where
  same : SameKeys s
  watched : ∀ r, s.Watched r ↔ r ∈ registered past

theorem Steady.nothingLost {past : List INotifyStep} (h : Steady past s) :
    NothingLost past s := by
  refine ⟨h.same, ?_⟩
  intro r hr
  exact kept_iff_watched.mpr ((h.watched r).mpr hr)

@[simp] theorem registered_regist (past : List INotifyStep) (r : Registration) (wd : Int) :
    registered (past ++ [.regist r wd]) = registered past ++ [r] := by
  simp [registered]

@[simp] theorem registered_event (past : List INotifyStep) (e : INotifyEvent) :
    registered (past ++ [.event e]) = registered past := by
  simp [registered]

/-- What fits does not depend on the handles called so far. -/
theorem fits_modified {modified : List Nat} {wd' : Int} :
    (rmWatch { s with modified := modified } wd).Fits r wd' ↔ (s.rmWatch wd).Fits r wd' := by
  simp only [Fits, Watched, entry_rmWatch]
  rfl

/-- A fitting event changes nothing of what is watched. -/
theorem watched_after (hr : s.Handles e r) (hfits : s.Fitting (.event e)) (modified : List Nat) :
    (s.after e r modified).Watched r' ↔ s.Watched r' := by
  have hentry : entry { s with modified := modified } e.wd = some r := hr.1
  rw [after]
  split
  · rename_i hbit
    rw [watched_addWatch (fits_modified.mpr (hfits hbit r hr)), watched_rmWatch hentry]
    constructor
    · rintro (rfl | hs)
      · exact ⟨e.wd, hr.1⟩
      · exact hs
    · exact .inr
  · exact Iff.rfl

/-- An event that does not fit loses a registration. -/
theorem lost_after (hfits : ¬ s.Fitting (.event e)) :
    ∃ r, s.Handles e r ∧ ∀ modified, ∃ r', s.Watched r' ∧ ¬ (s.after e r modified).Watched r' := by
  rw [Fitting, Classical.not_imp] at hfits
  simp only [not_forall] at hfits
  obtain ⟨hbit, r, hr, hnot⟩ := hfits
  refine ⟨r, hr, ?_⟩
  intro modified
  have hentry : entry { s with modified := modified } e.wd = some r := hr.1
  obtain ⟨r', hr', hlost⟩ := lost_addWatch (mt fits_modified.mp hnot)
  refine ⟨r', ?_, ?_⟩
  · rcases (watched_rmWatch hentry).mp hr' with rfl | hs
    · exact ⟨e.wd, hr.1⟩
    · exact hs
  · rw [after, if_pos hbit]
    exact hlost

theorem Steady.step {past : List INotifyStep} (h : Steady past s) {t : INotifyStep}
    (hfits : s.Fitting t) :
    Ensures (INotify.step s t) (Steady (past ++ [t])) fun _ => True := by
  cases t with
  | regist r wd =>
    refine ⟨h.same.addWatch r wd, ?_⟩
    intro r'
    rw [watched_addWatch hfits, registered_regist, List.mem_append, List.mem_singleton,
      h.watched, or_comm]
  | event e =>
    have hsame := h.same.handleEvent e
    rw [INotify.step]
    by_cases hhandles : ∃ r, s.Handles e r
    · obtain ⟨r, hr⟩ := hhandles
      obtain ⟨modified, heq⟩ := handleEvent_eq hr
      rw [heq] at hsame ⊢
      refine ⟨hsame, ?_⟩
      intro r'
      rw [watched_after hr hfits, registered_event, h.watched]
    · obtain ⟨x, heq⟩ := handleEvent_error (not_exists.mp hhandles)
      rw [heq]
      trivial

theorem Steady.step_lost {past : List INotifyStep} (h : Steady past s) {t : INotifyStep}
    (hfits : ¬ s.Fitting t) :
    ¬ Ensures (INotify.step s t) (NothingLost (past ++ [t])) fun _ => True := by
  cases t with
  | regist r wd =>
    obtain ⟨r', hr', hlost⟩ := lost_addWatch hfits
    rintro ⟨-, hkept⟩
    refine hlost (kept_iff_watched.mp (hkept r' ?_))
    rw [registered_regist, List.mem_append, List.mem_singleton, ← h.watched, or_comm]
    exact hr'
  | event e =>
    obtain ⟨r, hr, hlost⟩ := lost_after hfits
    obtain ⟨modified, heq⟩ := handleEvent_eq hr
    obtain ⟨r', hr', hlost⟩ := hlost modified
    rw [INotify.step, heq]
    rintro ⟨-, hkept⟩
    refine hlost (kept_iff_watched.mp (hkept r' ?_))
    rw [registered_event, ← h.watched]
    exact hr'

/-- **Registered files stay watched.** For every sequence of registrations and of dispatches,
whatever they read: `watchs` and `handles` always have the same keys; and after each step every
registration so far is watched with its own handle or will be retried, if and only if each step
is fitting. -/
theorem registrations_kept_iff (cs : List INotifyCall) :
    AllReached INotify.step SameKeys {} (cs.flatMap INotifyCall.steps) ∧
      ((∀ pre, pre <+: cs.flatMap INotifyCall.steps →
          Ensures (exec INotify.step {} pre) (NothingLost pre) fun _ => True) ↔
        Every INotify.step Fitting {} (cs.flatMap INotifyCall.steps)) := by
  have hempty : Steady [] {} := by
    refine ⟨fun _ => iff_of_true rfl rfl, ?_⟩
    intro r
    simp [Watched, entry, registered]
  have hkeys : ∀ s t, SameKeys s → Ensures (INotify.step s t) SameKeys fun _ => True := by
    intro s t h
    cases t with
    | regist r wd => exact h.addWatch r wd
    | event e => exact h.handleEvent e
  constructor
  · intro pre _ s' hs'
    exact (exec_ensures hkeys hempty.same pre).of_ok hs'
  · exact prefixes_iff_every (I := Steady) (fun _ _ _ h hfits => h.step hfits)
      (fun _ _ _ h hfits => h.step_lost hfits) (fun _ _ h => h.nothingLost) [] hempty

/-- An editor deletes the file, and it is not there again when `add_watch` is called. -/
theorem registration_lost :
    ¬ ∀ cs : List INotifyCall, ∀ pre, pre <+: cs.flatMap INotifyCall.steps →
      Ensures (exec INotify.step {} pre) (NothingLost pre) fun _ => True := by
  intro h
  have hrun := h [.registFileHandle ("script/main.py", some 0) 1, .handleRead [⟨1, IN_IGNORED, -1⟩]]
    _ List.prefix_rfl
  have hkept := hrun.2 ("script/main.py", some 0) (by simp [registered, INotifyCall.steps])
  obtain ⟨wd, hentry⟩ := kept_iff_watched.mp hkept
  have hgone : (rmWatch (addWatch {} ("script/main.py", some 0) 1) 1).entry wd = none := by
    rw [entry_rmWatch, entry_addWatch (by decide)]
    split <;> rfl
  cases hgone.symm.trans hentry

end INotify

end MixServer.Net
