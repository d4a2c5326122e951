import MixServer.Lib.Bits
import MixServer.Net.EventArray
import MixServer.Net.Selector

/-!
`Kqueue` (`net/kqueue.cpp`) and the filters it keeps in the kernel.

For each descriptor and each of three filters, the kernel has no filter, a
disabled one or an enabled one. `Kqueue` tracks this with two masks: the events
that are on (`revents`) and those that have been on since the descriptor was
added (`enable_events`). A removal deletes the filters that are on and forgets
the disabled ones, which are found again when the descriptor is added once more.
-/

namespace MixServer.Net

open Lib
open Function (update)

def MODIFY : Mask := 0x08

/-! ### The kernel -/

/-- `EVFILT_READ`, `EVFILT_WRITE`, `EVFILT_VNODE`. -/
inductive Filter where
  | read
  | write
  | vnode
deriving DecidableEq, Repr

/-- The event that a filter stands for. -/
def Filter.event : Filter → Mask
  | .read => READ
  | .write => WRITE
  | .vnode => MODIFY

/-- A filter that is present. -/
structure Knote where
  enabled : Bool
  /-- `EV_CLEAR`: an event that has been returned is forgotten. -/
  clear : Bool
deriving DecidableEq, Repr

def EV_ADD : BitVec 16 := 0x0001
def EV_DELETE : BitVec 16 := 0x0002
def EV_ENABLE : BitVec 16 := 0x0004
def EV_DISABLE : BitVec 16 := 0x0008
def EV_CLEAR : BitVec 16 := 0x0020

/-- `::kevent` with one change to a filter. `EV_ADD` creates or modifies it, and
enables it unless `EV_DISABLE` is given too; without `EV_ADD` a filter that is
absent makes the call fail (`ENOENT`). -/
def kevent (filter : Option Knote) (flags : BitVec 16) : Option (Option Knote) :=
  if flags &&& EV_ADD ≠ 0 then
    some (some { enabled := flags &&& EV_DISABLE = 0, clear := flags &&& EV_CLEAR ≠ 0 })
  else
    match filter with
    | none => none
    | some knote =>
        if flags &&& EV_DELETE ≠ 0 then some none
        else if flags &&& EV_DISABLE ≠ 0 then some (some { knote with enabled := false })
        else if flags &&& EV_ENABLE ≠ 0 then some (some { knote with enabled := true })
        else some (some knote)

theorem kevent_add (filter : Option Knote) :
    kevent filter (EV_ADD ||| EV_ENABLE ||| EV_CLEAR) = some (some ⟨true, true⟩) := rfl

theorem kevent_enable {knote : Knote} (h : knote.clear = true) :
    kevent (some knote) (0 ||| EV_ENABLE ||| EV_CLEAR) = some (some ⟨true, true⟩) := by
  cases knote
  cases h
  rfl

theorem kevent_disable {knote : Knote} (h : knote.clear = true) :
    kevent (some knote) (0 ||| EV_DISABLE ||| EV_CLEAR) = some (some ⟨false, true⟩) := by
  cases knote
  cases h
  rfl

theorem kevent_delete (knote : Knote) : kevent (some knote) EV_DELETE = some none := rfl

/-! ### The back end -/

/-- The assertions of `Kqueue`. -/
inductive KqueueAbort where
  | addHandle
  | updateEvent
  | rmHandle
  /-- `Kqueue::set_kevent`: `fd !=-1`, or a `kevent` call has failed. -/
  | setKevent
deriving DecidableEq, Repr

/-- The state of `Kqueue`, with the kernel's filters of its queue. -/
structure Kqueue where
  kernel : Int → Filter → Option Knote := fun _ _ => none
  kEvents : EventArray
  nEvents : Int := 0
  revents : Int → Option Mask := fun _ => none
  enableEvents : Int → Option Mask := fun _ => none

namespace Kqueue

/-- One part of `Kqueue::set_kevent`: the call for a filter whose event is asked for,
and the assertion on its result. -/
def change (s : Kqueue) (fd : Int) (e : Mask) (flags : BitVec 16) (filter : Filter) :
    Except KqueueAbort Kqueue :=
  if e &&& filter.event ≠ 0 then
    match kevent (s.kernel fd filter) flags with
    | some knote => .ok { s with kernel := update s.kernel fd (update (s.kernel fd) filter knote) }
    | none => .error .setKevent
  else
    .ok s

/-- `Kqueue::set_kevent`. -/
def setKevent (s : Kqueue) (fd : Int) (e : Mask) (flags : BitVec 16) :
    Except KqueueAbort Kqueue :=
  if fd = -1 then
    .error .setKevent
  else do
    let s ← s.change fd e flags .read
    let s ← s.change fd e flags .write
    s.change fd e flags .vnode

/-- `Kqueue::add_handle`. -/
def addHandle (alloc : Allocator) (s : Kqueue) (fd : Int) (e : Mask) :
    Except KqueueAbort Kqueue :=
  if (s.revents fd).isSome then
    .error .addHandle
  else do
    let s ← s.setKevent fd e (EV_ADD ||| EV_ENABLE ||| EV_CLEAR)
    let nEvents := s.nEvents + 1
    .ok { s with
      nEvents := nEvents
      revents := update s.revents fd (some e)
      enableEvents := update s.enableEvents fd (some e)
      kEvents := s.kEvents.reserve alloc nEvents }

/-- `Kqueue::_check_and_set_event`. -/
def checkAndSetEvent (s : Kqueue) (fd : Int) (e re enableE checkE : Mask) :
    Except KqueueAbort Kqueue :=
  let flags := if enableE &&& checkE = 0 then EV_ADD else 0
  if e &&& checkE ≠ 0 ∧ re &&& checkE = 0 then
    s.setKevent fd checkE (flags ||| EV_ENABLE ||| EV_CLEAR)
  else if e &&& checkE = 0 ∧ re &&& checkE ≠ 0 then
    s.setKevent fd checkE (flags ||| EV_DISABLE ||| EV_CLEAR)
  else
    .ok s

/-- `Kqueue::update_event`. -/
def updateEvent (s : Kqueue) (fd : Int) (e : Mask) : Except KqueueAbort Kqueue :=
  match s.revents fd, s.enableEvents fd with
  | some re, some enableE => do
      let s ← s.checkAndSetEvent fd e re enableE READ
      let s ← s.checkAndSetEvent fd e re enableE WRITE
      let s ← s.checkAndSetEvent fd e re enableE MODIFY
      .ok { s with
        revents := update s.revents fd (some e)
        enableEvents := update s.enableEvents fd (some (enableE ||| e)) }
  | _, _ => .error .updateEvent

/-- `Kqueue::rm_handle`. -/
def rmHandle (s : Kqueue) (fd : Int) : Except KqueueAbort Kqueue :=
  match s.revents fd with
  | some re => do
      let s ← s.setKevent fd re EV_DELETE
      .ok { s with
        revents := update s.revents fd none
        enableEvents := update s.enableEvents fd none
        nEvents := s.nEvents - 1 }
  | none => .error .rmHandle

def selector (alloc : Allocator) : Selector Kqueue KqueueAbort :=
  ⟨addHandle alloc, updateEvent, rmHandle⟩

/-- The state after the constructor. -/
def init (alloc : Allocator) : Kqueue := { kEvents := EventArray.init alloc }

/-! ### The calls -/

end Kqueue

/-- The kernel's filters after one call for each event of `e`. -/
def changed (filters : Filter → Option Knote) (e : Mask) (new : Filter → Option Knote)
    (filter : Filter) : Option Knote :=
  if e &&& filter.event ≠ 0 then new filter else filters filter

namespace Kqueue

variable {s : Kqueue} {fd : Int} {e : Mask} {flags : BitVec 16}

/-- The state with other filters for one descriptor. -/
def setFilters (s : Kqueue) (fd : Int) (filters : Filter → Option Knote) : Kqueue :=
  { s with kernel := update s.kernel fd filters }

theorem setFilters_self : s.setFilters fd (s.kernel fd) = s := by
  rw [setFilters, Function.update_eq_self]

theorem setFilters_setFilters (filters filters' : Filter → Option Knote) :
    (s.setFilters fd filters).setFilters fd filters' = s.setFilters fd filters' := by
  simp [setFilters]

@[simp] theorem kernel_setFilters (filters : Filter → Option Knote) :
    (s.setFilters fd filters).kernel = update s.kernel fd filters := rfl

/-- Three calls, each of which changes its own filter, change all filters. -/
theorem each_filter (step : Kqueue → Filter → Except KqueueAbort Kqueue)
    (new : Filter → Option Knote)
    (h : ∀ filter filters, filters filter = s.kernel fd filter →
      step (s.setFilters fd filters) filter =
        .ok (s.setFilters fd (update filters filter (new filter)))) :
    ∃ s₁ s₂, step s .read = .ok s₁ ∧ step s₁ .write = .ok s₂ ∧
      step s₂ .vnode = .ok (s.setFilters fd new) := by
  have hread := h .read _ rfl
  have hsame : update (s.kernel fd) .read (new .read) .write = s.kernel fd .write := by simp
  have hwrite := h .write _ hsame
  have hsame' : update (update (s.kernel fd) .read (new .read)) .write (new .write) .vnode =
      s.kernel fd .vnode := by simp
  have hvnode := h .vnode _ hsame'
  have hall : update (update (update (s.kernel fd) .read (new .read)) .write (new .write)) .vnode
      (new .vnode) = new := by
    funext filter
    cases filter <;> simp
  rw [setFilters_self] at hread
  rw [hall] at hvnode
  exact ⟨_, _, hread, hwrite, hvnode⟩

/-- `set_kevent` succeeds if each of its calls does. -/
theorem setKevent_ok (hfd : fd ≠ -1) (new : Filter → Option Knote)
    (h : ∀ filter, e &&& filter.event ≠ 0 →
      kevent (s.kernel fd filter) flags = some (new filter)) :
    s.setKevent fd e flags = .ok (s.setFilters fd (changed (s.kernel fd) e new)) := by
  have hchange : ∀ filter filters, filters filter = s.kernel fd filter →
      (s.setFilters fd filters).change fd e flags filter =
        .ok (s.setFilters fd (update filters filter (changed (s.kernel fd) e new filter))) := by
    intro filter filters hsame
    rw [changed, change]
    split
    · rename_i hset
      rw [kernel_setFilters, Function.update_self, hsame, h filter hset]
      simp [setFilters]
    · rw [← hsame, Function.update_eq_self]
  obtain ⟨s₁, s₂, hread, hwrite, hvnode⟩ :=
    each_filter (fun s filter => s.change fd e flags filter) _ hchange
  rw [setKevent, if_neg hfd, hread, ok_bind, hwrite, ok_bind, hvnode]

theorem event_inter (filter filter' : Filter) :
    filter.event &&& filter'.event ≠ 0 ↔ filter' = filter := by
  cases filter <;> cases filter' <;> decide

theorem setKevent_event (hfd : fd ≠ -1) {filter : Filter} {knote : Option Knote}
    (h : kevent (s.kernel fd filter) flags = some knote) :
    s.setKevent fd filter.event flags =
      .ok (s.setFilters fd (update (s.kernel fd) filter knote)) := by
  have hall : changed (s.kernel fd) filter.event (fun _ => knote) =
      update (s.kernel fd) filter knote := by
    funext filter'
    rw [changed, Function.update_apply]
    simp only [event_inter]
  rw [setKevent_ok hfd fun _ => knote, hall]
  intro filter' hevent
  rw [(event_inter filter filter').mp hevent]
  exact h

/-! ### The two masks -/

/-- The filters of a descriptor, whose events `m` are on and whose events `once`
have been on. -/
structure Matches (filters : Filter → Option Knote) (m once : Mask) : Prop where
  enabled : ∀ filter, (∃ knote, filters filter = some knote ∧ knote.enabled) ↔
    m &&& filter.event ≠ 0
  known : ∀ filter : Filter, m &&& filter.event ≠ 0 → once &&& filter.event ≠ 0
  present : ∀ filter : Filter, once &&& filter.event ≠ 0 → (filters filter).isSome

/-- A filter after `_check_and_set_event`. -/
def switched (filters : Filter → Option Knote) (e re : Mask) (filter : Filter) : Option Knote :=
  if e &&& filter.event ≠ 0 ∧ re &&& filter.event = 0 then some ⟨true, true⟩
  else if e &&& filter.event = 0 ∧ re &&& filter.event ≠ 0 then some ⟨false, true⟩
  else filters filter

/-- A filter is switched on, switched off, or left as it was because its event does not
change. -/
theorem switched_cases (filters : Filter → Option Knote) (e re : Mask) (filter : Filter) :
    (switched filters e re filter = some ⟨true, true⟩ ∧ e &&& filter.event ≠ 0) ∨
    (switched filters e re filter = some ⟨false, true⟩ ∧ e &&& filter.event = 0) ∨
    (switched filters e re filter = filters filter ∧
      (e &&& filter.event ≠ 0 ↔ re &&& filter.event ≠ 0)) := by
  rw [switched]
  split
  · rename_i hon
    exact .inl ⟨rfl, hon.1⟩
  · rename_i hon
    split
    · rename_i hoff
      exact .inr (.inl ⟨rfl, hoff.1⟩)
    · rename_i hoff
      refine .inr (.inr ⟨rfl, ?_, ?_⟩)
      · intro he
        by_contra hre
        exact hon ⟨he, hre⟩
      · intro hre
        by_contra he
        exact hoff ⟨he, hre⟩

variable {re once : Mask}

/-- What is switched on is added first if it has not been on; what is switched off
is there. -/
theorem checkAndSetEvent_ok (hfd : fd ≠ -1) (filter : Filter) {filters : Filter → Option Knote}
    (hsame : s.kernel fd filter = filters filter) (hmatches : Matches filters re once)
    (hclear : ∀ knote, filters filter = some knote → knote.clear = true) :
    s.checkAndSetEvent fd e re once filter.event =
      .ok (s.setFilters fd (update (s.kernel fd) filter (switched filters e re filter))) := by
  have hpresent : once &&& filter.event ≠ 0 →
      ∃ knote, s.kernel fd filter = some knote ∧ knote.clear = true := by
    intro honce
    obtain ⟨knote, hknote⟩ := Option.isSome_iff_exists.mp (hmatches.present filter honce)
    exact ⟨knote, hsame.trans hknote, hclear knote hknote⟩
  rw [checkAndSetEvent, switched]
  split
  · rename_i hon
    apply setKevent_event hfd
    split
    · exact kevent_add _
    · rename_i honce
      obtain ⟨knote, hknote, hclear⟩ := hpresent honce
      rw [hknote]
      exact kevent_enable hclear
  · split
    · rename_i hoff
      apply setKevent_event hfd
      have honce := hmatches.known filter hoff.2
      obtain ⟨knote, hknote, hclear⟩ := hpresent honce
      rw [if_neg honce, hknote]
      exact kevent_disable hclear
    · rw [← hsame, Function.update_eq_self, setFilters_self]

/-! ### The invariant -/

/-- The filters are those of the registered descriptors, but for disabled ones. -/
structure Tracks (s : Kqueue) (r : Registered) : Prop where
  revents : s.revents = r
  filters : ∀ fd m, r fd = some m →
    ∃ once, s.enableEvents fd = some once ∧ Matches (s.kernel fd) m once
  removed : ∀ fd, r fd = none → ∀ filter knote, s.kernel fd filter = some knote →
    knote.enabled = false
  clear : ∀ fd filter knote, s.kernel fd filter = some knote → knote.clear = true
  nonneg : r.Nonneg
  nEvents : r.Counts s.nEvents

variable {s' : Kqueue} {r : Registered} {m : Option Mask}

/-- A call changes the filters and the masks of one descriptor. -/
theorem Tracks.update (h : s.Tracks r) {filters : Filter → Option Knote}
    (hkernel : s'.kernel = Function.update s.kernel fd filters)
    (hrevents : s'.revents = Function.update s.revents fd m)
    {once : Option Mask} (henable : s'.enableEvents = Function.update s.enableEvents fd once)
    (hmatches : ∀ m', m = some m' → ∃ once', once = some once' ∧ Matches filters m' once')
    (hremoved : m = none → ∀ filter knote, filters filter = some knote → knote.enabled = false)
    (hclear : ∀ filter knote, filters filter = some knote → knote.clear = true)
    (hfd : 0 ≤ fd) (hcounts : Registered.Counts (Function.update r fd m) s'.nEvents) :
    s'.Tracks (Function.update r fd m) where
  revents := by rw [hrevents, h.revents]
  filters fd' m' hm' := by
    rw [hkernel, henable]
    by_cases heq : fd' = fd
    · subst heq
      rw [Function.update_self] at hm' ⊢
      rw [Function.update_self]
      exact hmatches m' hm'
    · rw [Function.update_of_ne heq] at hm' ⊢
      rw [Function.update_of_ne heq]
      exact h.filters fd' m' hm'
  removed fd' hnone := by
    rw [hkernel]
    by_cases heq : fd' = fd
    · subst heq
      rw [Function.update_self] at hnone ⊢
      exact hremoved hnone
    · rw [Function.update_of_ne heq] at hnone ⊢
      exact h.removed fd' hnone
  clear fd' := by
    rw [hkernel]
    by_cases heq : fd' = fd
    · subst heq
      rw [Function.update_self]
      exact hclear
    · rw [Function.update_of_ne heq]
      exact h.clear fd'
  nonneg := h.nonneg.update fun _ => hfd
  nEvents := hcounts

theorem Tracks.addHandle (alloc : Allocator) (h : s.Tracks r) (hfd : 0 ≤ fd)
    (hnone : r fd = none) :
    ∃ s', s.addHandle alloc fd e = .ok s' ∧ s'.Tracks (Function.update r fd (some e)) := by
  have hlegal : ¬ (s.revents fd).isSome := by
    rw [h.revents, hnone]
    simp
  have hset := setKevent_ok (s := s) (e := e) (by omega : fd ≠ -1) (fun _ => some ⟨true, true⟩)
    fun filter _ => kevent_add (s.kernel fd filter)
  rw [Kqueue.addHandle, if_neg hlegal, hset, ok_bind]
  refine ⟨_, rfl, ?_⟩
  have hchanged : ∀ filter knote, changed (s.kernel fd) e (fun _ => some ⟨true, true⟩) filter =
      some knote → knote.clear = true ∧ (knote.enabled = true ↔ e &&& filter.event ≠ 0) := by
    intro filter knote hknote
    rw [changed] at hknote
    split at hknote
    · rename_i hevent
      cases hknote
      exact ⟨rfl, fun _ => hevent, fun _ => rfl⟩
    · rename_i hevent
      refine ⟨h.clear fd filter knote hknote, ?_⟩
      rw [h.removed fd hnone filter knote hknote]
      exact iff_of_false (by simp) hevent
  refine h.update rfl rfl rfl ?_ (by simp) (fun filter knote hk => (hchanged filter knote hk).1)
    hfd (h.nEvents.add hnone e)
  intro m' hm'
  cases hm'
  refine ⟨e, rfl, ?_, fun _ => id, ?_⟩
  · intro filter
    constructor
    · rintro ⟨knote, hknote, henabled⟩
      exact (hchanged filter knote hknote).2.mp henabled
    · intro hevent
      exact ⟨⟨true, true⟩, if_pos hevent, rfl⟩
  · intro filter hevent
    rw [changed, if_pos hevent]
    rfl

theorem or_event (filter : Filter) : (once ||| e) &&& filter.event ≠ 0 ↔
    once &&& filter.event ≠ 0 ∨ e &&& filter.event ≠ 0 := by
  cases filter with
  | read => exact or_and_twoPow_ne_zero (i := 0) (by decide)
  | write => exact or_and_twoPow_ne_zero (i := 1) (by decide)
  | vnode => exact or_and_twoPow_ne_zero (i := 3) (by decide)

/-- The filters after `update_event`. -/
theorem Matches.switched {filters : Filter → Option Knote} (h : Matches filters re once) :
    Matches (switched filters e re) e (once ||| e) where
  enabled filter := by
    rcases switched_cases filters e re filter with ⟨heq, hon⟩ | ⟨heq, hoff⟩ | ⟨heq, hsame⟩
    · rw [heq]
      exact iff_of_true ⟨⟨true, true⟩, rfl, rfl⟩ hon
    · rw [heq]
      refine iff_of_false ?_ (not_not.mpr hoff)
      rintro ⟨knote, hknote, henabled⟩
      cases hknote
      cases henabled
    · rw [heq, h.enabled filter, hsame]
  known filter he := (or_event filter).mpr (.inr he)
  present filter honce := by
    rcases switched_cases filters e re filter with ⟨heq, -⟩ | ⟨heq, -⟩ | ⟨heq, hsame⟩
    · rw [heq]
      rfl
    · rw [heq]
      rfl
    · rw [heq]
      apply h.present filter
      rcases (or_event filter).mp honce with honce | he
      · exact honce
      · exact h.known filter (hsame.mp he)

theorem Tracks.updateEvent (h : s.Tracks r) (hknown : (r fd).isSome) :
    ∃ s', s.updateEvent fd e = .ok s' ∧ s'.Tracks (Function.update r fd (some e)) := by
  have hfd := h.nonneg fd hknown
  have hne : fd ≠ -1 := by omega
  obtain ⟨re, hre⟩ := Option.isSome_iff_exists.mp hknown
  obtain ⟨once, honce, hmatches⟩ := h.filters fd re hre
  have hcheck : ∀ filter filters, filters filter = s.kernel fd filter →
      (s.setFilters fd filters).checkAndSetEvent fd e re once filter.event =
        .ok (s.setFilters fd
          (Function.update filters filter (Kqueue.switched (s.kernel fd) e re filter))) := by
    intro filter filters hsame
    have hkernel : (s.setFilters fd filters).kernel fd = filters := by simp
    rw [checkAndSetEvent_ok hne filter (by rw [hkernel, hsame]) hmatches (h.clear fd filter),
      hkernel, setFilters_setFilters]
  obtain ⟨s₁, s₂, hread, hwrite, hmodify⟩ :=
    each_filter (fun s filter => s.checkAndSetEvent fd e re once filter.event) _ hcheck
  simp only [Filter.event] at hread hwrite hmodify
  rw [Kqueue.updateEvent, h.revents, hre, honce]
  simp only [hread, hwrite, hmodify, ok_bind]
  refine ⟨_, rfl, ?_⟩
  refine h.update rfl rfl rfl ?_ (by simp) ?_ hfd (h.nEvents.updateEvent hknown e)
  · intro m' hm'
    cases hm'
    exact ⟨_, rfl, hmatches.switched⟩
  · intro filter knote hknote
    rcases switched_cases (s.kernel fd) e re filter with ⟨heq, -⟩ | ⟨heq, -⟩ | ⟨heq, -⟩
    · rw [heq] at hknote
      cases hknote
      rfl
    · rw [heq] at hknote
      cases hknote
      rfl
    · exact h.clear fd filter knote (heq.symm.trans hknote)

theorem Tracks.rmHandle (h : s.Tracks r) (hknown : (r fd).isSome) :
    ∃ s', s.rmHandle fd = .ok s' ∧ s'.Tracks (Function.update r fd none) := by
  have hfd := h.nonneg fd hknown
  obtain ⟨re, hre⟩ := Option.isSome_iff_exists.mp hknown
  obtain ⟨once, honce, hmatches⟩ := h.filters fd re hre
  have hdelete : ∀ filter : Filter, re &&& filter.event ≠ 0 →
      kevent (s.kernel fd filter) EV_DELETE = some none := by
    intro filter hevent
    obtain ⟨knote, hknote, -⟩ := (hmatches.enabled filter).mpr hevent
    rw [hknote]
    exact kevent_delete knote
  have hset := setKevent_ok (s := s) (e := re) (by omega : fd ≠ -1) (fun _ => none) hdelete
  rw [Kqueue.rmHandle, h.revents, hre]
  simp only [hset, ok_bind]
  refine ⟨_, rfl, ?_⟩
  have hleft : ∀ filter knote, changed (s.kernel fd) re (fun _ => none) filter = some knote →
      s.kernel fd filter = some knote ∧ ¬ re &&& filter.event ≠ 0 := by
    intro filter knote hknote
    rw [changed] at hknote
    split at hknote
    · cases hknote
    · rename_i hevent
      exact ⟨hknote, hevent⟩
  refine h.update rfl (m := none) rfl rfl (by simp) ?_ ?_ hfd (h.nEvents.remove hknown)
  · intro _ filter knote hknote
    obtain ⟨hold, hevent⟩ := hleft filter knote hknote
    by_contra henabled
    exact hevent ((hmatches.enabled filter).mp
      ⟨knote, hold, Bool.not_eq_false _ ▸ henabled⟩)
  · intro filter knote hknote
    exact h.clear fd filter knote (hleft filter knote hknote).1

theorem refines (alloc : Allocator) : (selector alloc).Refines Tracks where
  addHandle h hfd hnone := h.addHandle alloc hfd hnone
  updateEvent h hknown := h.updateEvent hknown
  rmHandle h hknown := h.rmHandle hknown

theorem tracks_init (alloc : Allocator) : (init alloc).Tracks Registered.empty where
  revents := rfl
  filters fd m hm := by cases hm
  removed fd _ filter knote hknote := by cases hknote
  clear fd filter knote hknote := by cases hknote
  nonneg fd hfd := by cases hfd
  nEvents := Registered.counts_empty

/-- The filter is present and enabled. -/
def Enabled (s : Kqueue) (fd : Int) (filter : Filter) : Prop :=
  ∃ knote, s.kernel fd filter = some knote ∧ knote.enabled = true

/-- Over every sequence of calls that may be made, no assertion fails: no call
enables, disables or deletes a filter that is absent. Afterwards the filters that are
present and enabled are those of the events last asked for, and none of a descriptor
that is not registered, and `n_events` is the number of those that are. -/
theorem filters_exact (alloc : Allocator) {calls : List SelectorCall} {r : Registered}
    (hrun : exec Registered.step .empty calls = .ok r) :
    ∃ s, exec (selector alloc).step (init alloc) calls = .ok s ∧
      (∀ fd m, r fd = some m → ∀ filter : Filter, s.Enabled fd filter ↔ m &&& filter.event ≠ 0) ∧
      (∀ fd, r fd = none → ∀ filter, ¬ s.Enabled fd filter) ∧
      s.nEvents = {fd | (r fd).isSome}.ncard := by
  obtain ⟨s, hs, h⟩ := (refines alloc).exec_ok (tracks_init alloc) hrun
  refine ⟨s, hs, ?_, ?_, h.nEvents.ncard.symm⟩
  · intro fd m hm
    obtain ⟨once, -, hmatches⟩ := h.filters fd m hm
    exact hmatches.enabled
  · rintro fd hnone filter ⟨knote, hknote, henabled⟩
    rw [h.removed fd hnone filter knote hknote] at henabled
    cases henabled

/-- A disabled filter is left behind when its descriptor is removed, and is switched on
after the descriptor has been added again. -/
theorem filters_exact_leftover :
    ∃ s, exec (selector .libstdcxx).step (init .libstdcxx)
        [.addHandle 5 (READ ||| WRITE), .updateEvent 5 READ, .rmHandle 5, .addHandle 5 READ,
          .updateEvent 5 (READ ||| WRITE)] = .ok s ∧
      s.Enabled 5 .write ∧ ¬ s.Enabled 5 .vnode := by
  have hrun : exec Registered.step .empty
      [.addHandle 5 (READ ||| WRITE), .updateEvent 5 READ, .rmHandle 5, .addHandle 5 READ,
        .updateEvent 5 (READ ||| WRITE)] =
      .ok (update (update (update (update (update Registered.empty 5 (some (READ ||| WRITE))) 5
        (some READ)) 5 none) 5 (some READ)) 5 (some (READ ||| WRITE))) := rfl
  obtain ⟨s, hs, hknown, -, -⟩ := filters_exact .libstdcxx hrun
  have hfilter := hknown 5 (READ ||| WRITE) rfl
  refine ⟨s, hs, (hfilter .write).mpr (by decide), ?_⟩
  rw [hfilter .vnode]
  decide

/-! ### The vector -/

def slots (s : Kqueue) : Slots := ⟨s.nEvents, s.kEvents⟩

theorem change_slots (s : Kqueue) (fd : Int) (e : Mask) (flags : BitVec 16) (filter : Filter) :
    Ensures (s.change fd e flags filter) (fun s' => s'.slots = s.slots) fun _ => True := by
  rw [change]
  split
  · split <;> trivial
  · exact ensures_ok.mpr rfl

theorem setKevent_slots (s : Kqueue) (fd : Int) (e : Mask) (flags : BitVec 16) :
    Ensures (s.setKevent fd e flags) (fun s' => s'.slots = s.slots) fun _ => True := by
  rw [setKevent]
  split
  · trivial
  · refine (change_slots s fd e flags .read).bind fun s₁ h₁ => ?_
    refine (change_slots s₁ fd e flags .write).bind fun s₂ h₂ => ?_
    refine (change_slots s₂ fd e flags .vnode).mono (fun s₃ h₃ => ?_) fun _ => id
    exact h₃.trans (h₂.trans h₁)

theorem checkAndSetEvent_slots (s : Kqueue) (fd : Int) (e re enableE checkE : Mask) :
    Ensures (s.checkAndSetEvent fd e re enableE checkE) (fun s' => s'.slots = s.slots)
      fun _ => True := by
  rw [checkAndSetEvent]
  split
  · exact setKevent_slots _ _ _ _
  · split
    · exact setKevent_slots _ _ _ _
    · exact ensures_ok.mpr rfl

/-- What a call does to the number of descriptors and to the vector. -/
theorem slots_step (alloc : Allocator) (s : Kqueue) (call : SelectorCall) :
    Ensures ((selector alloc).step s call) (fun s' => s'.slots = s.slots.step alloc call)
      fun _ => True := by
  cases call with
  | addHandle fd events =>
    change Ensures (s.addHandle alloc fd events) _ _
    rw [addHandle]
    split
    · trivial
    · refine (setKevent_slots s fd events _).bind fun s' hs' => ?_
      obtain ⟨hn, hv⟩ := Slots.mk.inj hs'
      rw [ensures_ok, slots, hn, hv]
      rfl
  | updateEvent fd events =>
    change Ensures (s.updateEvent fd events) _ _
    rw [updateEvent]
    split
    · refine (checkAndSetEvent_slots s fd events _ _ READ).bind fun s₁ h₁ => ?_
      refine (checkAndSetEvent_slots s₁ fd events _ _ WRITE).bind fun s₂ h₂ => ?_
      refine (checkAndSetEvent_slots s₂ fd events _ _ MODIFY).bind fun s₃ h₃ => ?_
      exact h₃.trans (h₂.trans h₁)
    · trivial
  | rmHandle fd =>
    change Ensures (s.rmHandle fd) _ _
    rw [rmHandle]
    split
    · refine (setKevent_slots s fd _ EV_DELETE).bind fun s' hs' => ?_
      obtain ⟨hn, hv⟩ := Slots.mk.inj hs'
      rw [ensures_ok, slots, hn, hv]
      rfl
    · trivial

end Kqueue

end MixServer.Net
