import MixServer.Net.Kqueue

/-!
`Epoll` (`net/epoll.cpp`), and the room for events in `Epoll` and in `Kqueue`.

`Epoll` keeps no table of its own: the interests are in the kernel, and
`epoll_ctl` refuses to add a descriptor twice and to change or delete one that
is not there.

Both back ends pass the kernel one event more than there are descriptors, and
resize the vector for the events only when the number of descriptors passes its
capacity. So from ten descriptors on the vector is too small (`room_iff`).
-/

namespace MixServer.Net

open Lib
open Function (update)

/-- `Epoll`, with the kernel's interest list. -/
structure Epoll where
  interest : Int → Option (BitVec 32) := fun _ => none
  epollEvents : EventArray
  nEvents : Int := 0

namespace Epoll

def EPOLLIN : BitVec 32 := 0x001
def EPOLLOUT : BitVec 32 := 0x004

/-- `Epoll::to_epoll_event`. -/
def toEpollEvent (events : Mask) : BitVec 32 :=
  let e := 0
  let e := if events &&& READ ≠ 0 then e ||| EPOLLIN else e
  if events &&& WRITE ≠ 0 then e ||| EPOLLOUT else e

/-- `EPOLL_CTL_ADD`, `EPOLL_CTL_MOD`, `EPOLL_CTL_DEL`. -/
inductive Op where
  | add
  | mod
  | del
deriving DecidableEq, Repr

/-- `Epoll::epoll_ctl`: the kernel's call, and the assertion on its result. -/
def epollCtl (s : Epoll) (op : Op) (fd : Int) (e : Mask) : Except Abort Epoll :=
  match op with
  | .add =>
      if fd = -1 ∨ (s.interest fd).isSome then .error .addHandle
      else .ok { s with interest := update s.interest fd (some (toEpollEvent e)) }
  | .mod =>
      if fd = -1 ∨ (s.interest fd).isNone then .error .updateEvent
      else .ok { s with interest := update s.interest fd (some (toEpollEvent e)) }
  | .del =>
      if fd = -1 ∨ (s.interest fd).isNone then .error .rmHandle
      else .ok { s with interest := update s.interest fd none }

/-- `Epoll::add_handle`. -/
def addHandle (alloc : Allocator) (s : Epoll) (fd : Int) (e : Mask) : Except Abort Epoll := do
  let s ← s.epollCtl .add fd e
  let nEvents := s.nEvents + 1
  .ok { s with nEvents := nEvents, epollEvents := s.epollEvents.reserve alloc nEvents }

/-- `Epoll::update_event`. -/
def updateEvent (s : Epoll) (fd : Int) (e : Mask) : Except Abort Epoll :=
  s.epollCtl .mod fd e

/-- `Epoll::rm_handle`. -/
def rmHandle (s : Epoll) (fd : Int) : Except Abort Epoll := do
  let s ← s.epollCtl .del fd 0
  .ok { s with nEvents := s.nEvents - 1 }

def selector (alloc : Allocator) : Selector Epoll Abort :=
  ⟨addHandle alloc, updateEvent, rmHandle⟩

/-- The state after the constructor. -/
def init (alloc : Allocator) : Epoll := { epollEvents := EventArray.init alloc }

def slots (s : Epoll) : Slots := ⟨s.nEvents, s.epollEvents⟩

/-- `Epoll` watches what is registered. -/
structure Tracks (s : Epoll) (r : Registered) : Prop where
  interest : ∀ fd, s.interest fd = (r fd).map toEpollEvent
  nonneg : r.Nonneg
  nEvents : r.Counts s.nEvents

variable {s s' : Epoll} {r : Registered} {fd : Int} {e : Mask}

theorem tracks_init (alloc : Allocator) : (init alloc).Tracks Registered.empty where
  interest _ := rfl
  nonneg fd hfd := by cases hfd
  nEvents := Registered.counts_empty

theorem Tracks.update (h : s.Tracks r) {m : Option Mask}
    (hinterest : s'.interest = update s.interest fd (m.map toEpollEvent)) (hfd : 0 ≤ fd)
    (hcounts : Registered.Counts (update r fd m) s'.nEvents) : s'.Tracks (update r fd m) where
  interest fd' := by
    rw [hinterest]
    exact Registered.map_update h.interest fd m fd'
  nonneg := h.nonneg.update fun _ => hfd
  nEvents := hcounts

/-- The kernel knows what is registered. -/
theorem Tracks.known (h : s.Tracks r) (hknown : (r fd).isSome) :
    ¬ (fd = -1 ∨ (s.interest fd).isNone) := by
  have hfd := h.nonneg fd hknown
  rw [h.interest, Option.isNone_map, ← Option.not_isSome, hknown]
  simp
  omega

theorem refines (alloc : Allocator) : (selector alloc).Refines Tracks where
  addHandle := by
    intro s r fd events h hfd hnone
    have hlegal : ¬ (fd = -1 ∨ (s.interest fd).isSome) := by
      rw [h.interest, hnone]
      simp
      omega
    have hctl : s.epollCtl .add fd events =
        .ok { s with interest := update s.interest fd (some (toEpollEvent events)) } :=
      if_neg hlegal
    change ∃ s', s.addHandle alloc fd events = .ok s' ∧ _
    rw [addHandle, hctl, ok_bind]
    exact ⟨_, rfl, h.update (m := some events) rfl hfd (h.nEvents.add hnone events)⟩
  updateEvent := by
    intro s r fd events h hknown
    exact ⟨_, if_neg (h.known hknown), h.update (m := some events) rfl (h.nonneg fd hknown)
      (h.nEvents.updateEvent hknown events)⟩
  rmHandle := by
    intro s r fd h hknown
    have hctl : s.epollCtl .del fd 0 = .ok { s with interest := update s.interest fd none } :=
      if_neg (h.known hknown)
    change ∃ s', s.rmHandle fd = .ok s' ∧ _
    rw [rmHandle, hctl, ok_bind]
    exact ⟨_, rfl, h.update (m := none) rfl (h.nonneg fd hknown) (h.nEvents.remove hknown)⟩

theorem epollCtl_slots (s : Epoll) (op : Op) (fd : Int) (e : Mask) :
    Ensures (s.epollCtl op fd e) (fun s' => s'.slots = s.slots) fun _ => True := by
  cases op with
  | add =>
    rw [epollCtl]
    split <;> trivial
  | mod =>
    rw [epollCtl]
    split <;> trivial
  | del =>
    rw [epollCtl]
    split <;> trivial

/-- What a call does to the number of descriptors and to the vector. -/
theorem slots_step (alloc : Allocator) (s : Epoll) (call : SelectorCall) :
    Ensures ((selector alloc).step s call) (fun s' => s'.slots = s.slots.step alloc call)
      fun _ => True := by
  cases call with
  | addHandle fd events =>
    refine (epollCtl_slots s .add fd events).bind ?_
    intro s' hs'
    obtain ⟨hn, hv⟩ := Slots.mk.inj hs'
    rw [ensures_ok, slots, hn, hv]
    rfl
  | updateEvent fd events => exact epollCtl_slots s .mod fd events
  | rmHandle fd =>
    refine (epollCtl_slots s .del fd 0).bind ?_
    intro s' hs'
    obtain ⟨hn, hv⟩ := Slots.mk.inj hs'
    rw [ensures_ok, slots, hn, hv]
    rfl

end Epoll

/-! ### Room for events -/

/-- The number of registered descriptors. -/
noncomputable def Registered.count (r : Registered) : Int := {fd | (r fd).isSome}.ncard

variable {calls : List SelectorCall} {r : Registered}

/-- Both back ends count what is registered. -/
theorem after_nEvents (alloc : Allocator) (hrun : exec Registered.step .empty calls = .ok r) :
    (Slots.after alloc calls).nEvents = r.count := by
  obtain ⟨s, hs, h⟩ := (Epoll.refines alloc).exec_ok (Epoll.tracks_init alloc) hrun
  rw [← Slots.exec_after (Epoll.slots_step alloc) rfl hs]
  exact h.nEvents.ncard.symm

/-- After a sequence of calls that may be made, the vectors of `Epoll` and `Kqueue` are
large enough for the next wait call if and only if fewer than ten descriptors are
registered, or fewer than the vector was resized to before. They are large enough after
each call of the sequence if and only if there are always fewer than ten. -/
theorem room_iff (alloc : Allocator) (hrun : exec Registered.step .empty calls = .ok r) :
    ∃ s t, exec (Epoll.selector alloc).step (Epoll.init alloc) calls = .ok s ∧
      exec (Kqueue.selector alloc).step (Kqueue.init alloc) calls = .ok t ∧
      (s.slots.Fits ∧ t.slots.Fits ↔
        r.count < 10 ∨ ∃ n, Slots.Grown alloc calls n ∧ r.count < n) ∧
      (AllReached (Epoll.selector alloc).step (fun s => s.slots.Fits) (Epoll.init alloc) calls ∧
        AllReached (Kqueue.selector alloc).step (fun s => s.slots.Fits) (Kqueue.init alloc) calls ↔
        AllReached Registered.step (fun r => r.count < 10) .empty calls) := by
  obtain ⟨s, hs, -⟩ := (Epoll.refines alloc).exec_ok (Epoll.tracks_init alloc) hrun
  obtain ⟨t, ht, -⟩ := (Kqueue.refines alloc).exec_ok (Kqueue.tracks_init alloc) hrun
  refine ⟨s, t, hs, ht, ?_, ?_⟩
  · rw [Slots.exec_after (Epoll.slots_step alloc) rfl hs,
      Slots.exec_after (Kqueue.slots_step alloc) rfl ht, and_self, Slots.fits_iff,
      after_nEvents alloc hrun]
  · rw [Slots.allReached_iff (Epoll.slots_step alloc) rfl hs Slots.Fits,
      Slots.allReached_iff (Kqueue.slots_step alloc) rfl ht Slots.Fits, and_self,
      Slots.fits_always_iff]
    constructor
    · intro hsmall past hpre r' hr'
      rw [← after_nEvents alloc hr']
      exact hsmall past hpre
    · intro hsmall past hpre
      obtain ⟨r', hr'⟩ := exec_of_prefix hrun hpre
      rw [after_nEvents alloc hr']
      exact hsmall past hpre r' hr'

/-- Eleven descriptors, for which the vector is resized, and then one of them less. -/
theorem room_iff_grown :
    ∃ t, exec (Kqueue.selector .libstdcxx).step (Kqueue.init .libstdcxx)
        ((List.range 11).map (fun i => .addHandle i READ) ++ [.rmHandle 3]) = .ok t ∧
      t.slots.nEvents = 10 ∧ t.slots.Fits := by
  have hrun : exec Registered.step .empty
      ((List.range 11).map (fun i => .addHandle i READ) ++ [.rmHandle 3]) = .ok _ := rfl
  have hcount := after_nEvents .libstdcxx hrun
  have hgrown : Slots.Grown .libstdcxx
      ((List.range 11).map (fun i => .addHandle i READ) ++ [.rmHandle 3]) 11 :=
    ⟨(List.range 10).map fun i => .addHandle i READ, 10, READ, ⟨[.rmHandle 3], rfl⟩, by decide⟩
  obtain ⟨s, t, -, ht, hiff, -⟩ := room_iff .libstdcxx hrun
  refine ⟨t, ht, ?_, (hiff.mpr (.inr ⟨11, hgrown, ?_⟩)).2⟩
  · rw [Slots.exec_after (Kqueue.slots_step .libstdcxx) rfl ht]
    decide
  · rw [← hcount]
    decide

/-- Ten descriptors: the kernel may write eleven events into ten elements. -/
theorem room_ten :
    ¬ ∀ (alloc : Allocator) (calls : List SelectorCall) (r : Registered) (t : Kqueue),
      exec Registered.step .empty calls = .ok r →
      exec (Kqueue.selector alloc).step (Kqueue.init alloc) calls = .ok t → t.slots.Fits := by
  intro h
  have hrun : exec Registered.step .empty
      ((List.range 10).map fun i => .addHandle i (READ ||| WRITE)) = .ok _ := rfl
  obtain ⟨t, ht, -⟩ := (Kqueue.refines .libstdcxx).exec_ok (Kqueue.tracks_init .libstdcxx) hrun
  have hfits := h .libstdcxx _ _ t hrun ht
  rw [Slots.exec_after (Kqueue.slots_step .libstdcxx) rfl ht] at hfits
  exact absurd hfits (by decide)

end MixServer.Net
