import MixServer.Lib.Indexed
import MixServer.Net.EventLoop

/-!
`Poll` (`net/poll.cpp`): the interests in a vector of `pollfd`, with a map from
the descriptors to their positions.

Read through the map, the vector is a finite map from descriptors to events
(`interest`), and the three operations are an insertion, a removal and a
replacement there. So `Poll` does for `EventLoop` what the selector's table of
`MixServer.Net.EventLoop` stands for, assertions included (`Implements`).
-/

namespace MixServer.Net

open Lib
open Function (update)

/-- A mask of `enum EVENT` bits; an `int`. -/
abbrev Mask := BitVec 32

def READ : Mask := 0x01
def WRITE : Mask := 0x02
def ERROR : Mask := 0x04

/-- The bits as the mask they stand for. -/
def Events.mask (e : Events) : Mask :=
  (if e.read then READ else 0) ||| (if e.write then WRITE else 0) ||| if e.error then ERROR else 0

/-- `struct pollfd`, without the `revents` the kernel writes. -/
structure PollFd where
  fd : Int
  events : BitVec 16
deriving DecidableEq, Repr

structure Poll where
  pollfds : List PollFd := []
  handles : Int → Option Nat := fun _ => none

namespace Poll

def POLLIN : BitVec 16 := 0x001
def POLLOUT : BitVec 16 := 0x004

/-- `Poll::to_poll_event`. -/
def toPollEvent (events : Mask) : BitVec 16 :=
  let e := 0
  let e := if events &&& READ ≠ 0 then e ||| POLLIN else e
  if events &&& WRITE ≠ 0 then e ||| POLLOUT else e

/-- `Poll::add_handle`. -/
def addHandle (s : Poll) (fd : Int) (events : Mask) : Except Abort Poll :=
  if fd = -1 ∨ (s.handles fd).isSome then
    .error .addHandle
  else
    let pollfds := s.pollfds ++ [⟨fd, toPollEvent events⟩]
    .ok { pollfds := pollfds, handles := update s.handles fd (some (pollfds.length - 1)) }

/-- `Poll::rm_handle`: the last entry takes the place of the one that goes. -/
def rmHandle (s : Poll) (fd : Int) : Except Abort Poll :=
  match s.handles fd, s.pollfds.getLast? with
  | some idx, some lastFd =>
      let s :=
        if 1 < s.pollfds.length ∧ idx + 1 ≠ s.pollfds.length then
          { pollfds := s.pollfds.set idx lastFd
            handles := update s.handles lastFd.fd (some idx) }
        else s
      .ok { pollfds := s.pollfds.dropLast, handles := update s.handles fd none }
  | _, _ => .error .rmHandle

/-- `Poll::update_event`. -/
def updateEvent (s : Poll) (fd : Int) (events : Mask) : Except Abort Poll :=
  match s.handles fd with
  | some idx =>
      if fd = -1 then
        .error .updateEvent
      else
        .ok { s with
          pollfds := s.pollfds.modify idx fun p => { p with events := toPollEvent events } }
  | none => .error .updateEvent

variable {s s' : Poll} {fd : Int} {events : Mask}

/-- The map is the positions of the descriptors in the vector. -/
def Exact (s : Poll) : Prop := Indexed PollFd.fd s.pollfds s.handles

/-- The events `::poll` watches a descriptor for. -/
def interest (s : Poll) (fd : Int) : Option (BitVec 16) :=
  (lookup s.pollfds s.handles fd).map PollFd.events

theorem exact_empty : Exact {} := Indexed.nil

theorem Exact.interest_isSome (h : s.Exact) : (s.interest fd).isSome = (s.handles fd).isSome := by
  rw [interest, Option.isSome_map, Indexed.lookup_isSome h]

/-- What is watched is what stands in the vector. -/
theorem Exact.mem_pollfds (h : s.Exact) {p : PollFd} :
    p ∈ s.pollfds ↔ s.interest p.fd = some p.events := by
  rw [interest, Option.map_eq_some_iff]
  constructor
  · intro hp
    exact ⟨p, (Indexed.lookup_eq_some_iff h).mpr ⟨hp, rfl⟩, rfl⟩
  · rintro ⟨q, hq, hevents⟩
    obtain ⟨hmem, hfd⟩ := (Indexed.lookup_eq_some_iff h).mp hq
    cases p
    cases q
    cases hfd
    cases hevents
    exact hmem

theorem Exact.addHandle (h : s.Exact) (hok : s.addHandle fd events = .ok s') :
    s'.Exact ∧ fd ≠ -1 ∧ s.interest fd = none ∧
      s'.interest = update s.interest fd (some (toPollEvent events)) := by
  simp only [Poll.addHandle] at hok
  split at hok
  · cases hok
  · rename_i hfd
    obtain ⟨hne, hnone⟩ := not_or.mp hfd
    rw [Option.not_isSome_iff_eq_none] at hnone
    cases hok
    have hlength :
        (s.pollfds ++ [PollFd.mk fd (toPollEvent events)]).length - 1 = s.pollfds.length := by
      simp
    refine ⟨?_, hne, ?_, ?_⟩
    · rw [Exact, hlength]
      exact Indexed.append h hnone
    · simp [interest, lookup, hnone]
    · funext fd'
      have hlookup := Indexed.lookup_append (b := ⟨fd, toPollEvent events⟩) h
      rw [interest, hlength, hlookup, Function.update_apply, Function.update_apply]
      split
      · rfl
      · rfl

theorem Exact.rmHandle (h : s.Exact) (hok : s.rmHandle fd = .ok s') :
    s'.Exact ∧ (s.interest fd).isSome ∧ s'.interest = update s.interest fd none := by
  simp only [Poll.rmHandle] at hok
  split at hok
  · rename_i idx lastFd hidx hlast
    have hinterest : ∀ {pollfds handles},
        lookup pollfds handles = update (lookup s.pollfds s.handles) fd none →
        interest ⟨pollfds, handles⟩ = update s.interest fd none := by
      intro pollfds handles hlookup
      funext fd'
      rw [interest, hlookup, Function.update_apply, Function.update_apply]
      split
      · rfl
      · rfl
    have hsome : (s.interest fd).isSome := by
      rw [h.interest_isSome, hidx]
      rfl
    split at hok
    · rename_i hmoved
      cases hok
      exact ⟨Indexed.swap h hidx hlast hmoved.2, hsome,
        hinterest (Indexed.lookup_swap h hidx hlast hmoved.2)⟩
    · rename_i hmoved
      cases hok
      have hlt := Indexed.lt_length h hidx
      have hend : idx + 1 = s.pollfds.length := by
        by_contra hne
        exact hmoved ⟨by omega, hne⟩
      exact ⟨Indexed.dropLast h hidx hend, hsome, hinterest (Indexed.lookup_dropLast h hidx hend)⟩
  · cases hok

theorem Exact.updateEvent (h : s.Exact) (hok : s.updateEvent fd events = .ok s') :
    s'.Exact ∧ (s.interest fd).isSome ∧
      s'.interest = update s.interest fd (some (toPollEvent events)) := by
  simp only [Poll.updateEvent] at hok
  split at hok
  · rename_i idx hidx
    split at hok
    · cases hok
    · cases hok
      have hlt := Indexed.lt_length h hidx
      have hold := List.getElem?_eq_getElem hlt
      have hfd : s.pollfds[idx].fd = fd := Indexed.key_eq h hidx hold
      have hset : s.pollfds.modify idx (fun p => { p with events := toPollEvent events }) =
          s.pollfds.set idx ⟨fd, toPollEvent events⟩ := by
        rw [List.modify_eq_set_getElem?, hold, ← hfd]
        rfl
      refine ⟨?_, ?_, ?_⟩
      · rw [Exact, hset]
        exact Indexed.set h hidx
      · rw [h.interest_isSome, hidx]
        rfl
      · funext fd'
        have hlookup := Indexed.lookup_set (b := ⟨fd, toPollEvent events⟩) h hidx
        rw [interest, hset, hlookup, Function.update_apply, Function.update_apply]
        split
        · rfl
        · rfl
  · cases hok

/-! ### The selector of an `EventLoop` -/

/-- An entry changes in a map and in a view of it by descriptors. -/
theorem update_map {α β : Type} {f : Int → Option β} {g : Nat → Option α} {view : α → β}
    (h : ∀ n : Nat, f n = (g n).map view) (n : Nat) (x : Option α) (n' : Nat) :
    update f n (x.map view) n' = (update g n x n').map view := by
  have hcast : f ∘ Nat.cast = Option.map view ∘ g := funext h
  calc update f n (x.map view) n' = update (f ∘ Nat.cast) n (x.map view) n' :=
        congrFun (Function.update_comp_eq_of_injective f Nat.cast_injective n _) n'
    _ = (Option.map view ∘ update g n x) n' := by rw [hcast, Function.comp_update]

/-- `Poll` watches what the selector's table says. -/
structure Implements (s : Poll) (select_ : Nat → Option Events) : Prop where
  exact : s.Exact
  interest : ∀ fd : Nat, s.interest fd = (select_ fd).map fun e => toPollEvent e.mask

/-- Both calls succeed and `Poll` watches what it should, or both fail alike. -/
def Simulates (l : Except Abort EventLoop) (s : Except Abort Poll) : Prop :=
  match l, s with
  | .ok l, .ok s => s.Implements l.select_
  | .error x, .error y => x = y
  | _, _ => False

variable {l : EventLoop} {select_ : Nat → Option Events}

/-- A call that succeeds in `EventLoop`'s table succeeds in `Poll`. -/
theorem Simulates.exists_ok {r : Except Abort EventLoop} {r' : Except Abort Poll}
    (h : Simulates r r') (hr : r = .ok l) : ∃ s, r' = .ok s ∧ s.Implements l.select_ := by
  subst hr
  cases r' with
  | ok s => exact ⟨s, rfl, h⟩
  | error x => exact h.elim

theorem Implements.handles_isSome (h : s.Implements select_) (fd : Nat) :
    (s.handles fd).isSome = (select_ fd).isSome := by
  rw [← h.exact.interest_isSome, h.interest, Option.isSome_map]

/-- An entry changes on both sides. -/
theorem Implements.update (h : s.Implements select_) (hexact : s'.Exact) {fd : Nat}
    {e : Option Events}
    (hinterest : s'.interest = update s.interest (fd : Int) (e.map fun e => toPollEvent e.mask)) :
    s'.Implements (update select_ fd e) where
  exact := hexact
  interest fd' := by
    rw [hinterest]
    exact update_map h.interest fd e fd'

theorem Implements.registHandle (h : s.Implements l.select_) (fd : Nat) (e : Events)
    (p : HandleRef) : Simulates (l.registHandle fd e p) (s.addHandle fd e.mask) := by
  have hsome := h.handles_isSome fd
  cases hadd : s.addHandle fd e.mask with
  | error x =>
    simp only [Poll.addHandle, hsome] at hadd
    split at hadd
    · rename_i hfd
      cases hadd
      have hknown : (l.select_ fd).isSome = true := hfd.resolve_left (by omega)
      rw [EventLoop.registHandle, if_pos hknown]
      rfl
    · cases hadd
  | ok s' =>
    obtain ⟨hexact, -, hnone, hinterest⟩ := h.exact.addHandle hadd
    have hunknown : ¬ (l.select_ fd).isSome = true := by
      rw [h.interest, Option.map_eq_none_iff] at hnone
      rw [hnone]
      simp
    rw [EventLoop.registHandle, if_neg hunknown]
    exact h.update hexact hinterest

theorem Implements.unregistHandle (h : s.Implements l.select_) (fd : Nat) :
    Simulates (l.unregistHandle fd) (s.rmHandle fd) := by
  have hsome := h.handles_isSome fd
  cases hrm : s.rmHandle fd with
  | error x =>
    simp only [Poll.rmHandle] at hrm
    split at hrm
    · cases hrm
    · rename_i hnone
      cases hrm
      have hunknown : ¬ (l.select_ fd).isSome = true := by
        rw [← hsome]
        intro hidx
        obtain ⟨idx, hidx⟩ := Option.isSome_iff_exists.mp hidx
        have hne : s.pollfds ≠ [] := by
          intro hnil
          have hlt := Indexed.lt_length h.exact hidx
          simp [hnil] at hlt
        exact hnone _ _ hidx (List.getLast?_eq_getLast_of_ne_nil hne)
      rw [EventLoop.unregistHandle, if_neg hunknown]
      rfl
  | ok s' =>
    obtain ⟨hexact, hsome', hinterest⟩ := h.exact.rmHandle hrm
    have hknown : (l.select_ fd).isSome = true := by
      rwa [h.interest, Option.isSome_map] at hsome'
    rw [EventLoop.unregistHandle, if_pos hknown]
    exact h.update hexact hinterest

theorem Implements.updateEvent (h : s.Implements l.select_) (fd : Nat) (e : Events) :
    Simulates (l.updateEvent fd e) (s.updateEvent fd e.mask) := by
  have hsome := h.handles_isSome fd
  cases hupdate : s.updateEvent fd e.mask with
  | error x =>
    obtain ⟨hunknown, hx⟩ : ¬ (l.select_ fd).isSome = true ∧ x = .updateEvent := by
      simp only [Poll.updateEvent] at hupdate
      split at hupdate
      · split at hupdate
        · omega
        · cases hupdate
      · rename_i hnone
        cases hupdate
        rw [← hsome, hnone]
        exact ⟨by simp, rfl⟩
    rw [EventLoop.updateEvent, if_neg hunknown, hx]
    rfl
  | ok s' =>
    obtain ⟨hexact, hsome', hinterest⟩ := h.exact.updateEvent hupdate
    have hknown : (l.select_ fd).isSome = true := by
      rwa [h.interest, Option.isSome_map] at hsome'
    rw [EventLoop.updateEvent, if_pos hknown]
    exact h.update hexact hinterest

end Poll

end MixServer.Net
