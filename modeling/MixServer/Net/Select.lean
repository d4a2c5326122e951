import Mathlib.Data.Finset.Basic
import Mathlib.Order.Bounds.Basic
import MixServer.Net.Selector

/-!
`Select` (`net/select.cpp`): the interests in three sets of descriptors, next to
a vector of all descriptors with a map to their positions.

The vector and the map are kept as in `Poll`; a set holds the descriptors whose
last mask has its bit, and `max_fds` is the greatest of all (`Tracks`). A `fd_set`
is a finite set here: `FD_SETSIZE`, which the code does not check, bounds the
descriptors it is meant for.
-/

namespace MixServer.Net

open Lib
open Function (update)

structure Select where
  readFds : Finset Int := ∅
  writeFds : Finset Int := ∅
  errorFds : Finset Int := ∅
  allFds : List Int := []
  handles : Std.TreeMap Int Nat := ∅
  maxFds : Int := 0

namespace Select

/-- `Select::add_handle`. -/
def addHandle (s : Select) (fd : Int) (events : Mask) : Except Abort Select :=
  if fd = -1 ∨ fd ∈ s.handles then
    .error .addHandle
  else
    let allFds := s.allFds ++ [fd]
    .ok {
      maxFds := if s.maxFds < fd then fd else s.maxFds
      allFds := allFds
      handles := s.handles.insert fd (allFds.length - 1)
      readFds := if events &&& READ ≠ 0 then insert fd s.readFds else s.readFds
      writeFds := if events &&& WRITE ≠ 0 then insert fd s.writeFds else s.writeFds
      errorFds := if events &&& ERROR ≠ 0 then insert fd s.errorFds else s.errorFds }

/-- `Select::update_fd`. -/
def updateFd (fd : Int) (events e : Mask) (fds : Finset Int) : Finset Int :=
  if fd ∈ fds then
    if events &&& e = 0 then fds.erase fd else fds
  else if events &&& e ≠ 0 then
    insert fd fds
  else
    fds

/-- `Select::update_event`: whether the descriptor is registered is not asked. -/
def updateEvent (s : Select) (fd : Int) (events : Mask) : Except Abort Select :=
  if fd = -1 then
    .error .updateEvent
  else
    .ok { s with
      readFds := updateFd fd events READ s.readFds
      writeFds := updateFd fd events WRITE s.writeFds
      errorFds := updateFd fd events ERROR s.errorFds }

/-- `Select::rm_handle`: the last entry takes the place of the one that goes, and
the greatest key is looked up when the greatest descriptor goes. -/
def rmHandle (s : Select) (fd : Int) : Except Abort Select :=
  match s.handles[fd]?, s.allFds.getLast? with
  | some idx, some lastFd =>
      let s :=
        if 1 < s.allFds.length ∧ idx + 1 ≠ s.allFds.length then
          { s with
            handles := s.handles.insert lastFd idx
            allFds := s.allFds.set idx lastFd }
        else s
      let allFds := s.allFds.dropLast
      let handles := s.handles.erase fd
      .ok {
        readFds := updateFd fd 0 READ s.readFds
        writeFds := updateFd fd 0 WRITE s.writeFds
        errorFds := updateFd fd 0 ERROR s.errorFds
        allFds := allFds
        handles := handles
        maxFds :=
          if allFds = [] then 0
          else if fd = s.maxFds then handles.maxKeyD s.maxFds
          else s.maxFds }
  | _, _ => .error .rmHandle

def selector : Selector Select Abort := ⟨addHandle, updateEvent, rmHandle⟩

/-! ### The sets -/

/-- The set of the descriptors whose last mask has the bit `e`. -/
def Watches (r : Registered) (e : Mask) (fds : Finset Int) : Prop :=
  ∀ fd, fd ∈ fds ↔ ∃ m, r fd = some m ∧ m &&& e ≠ 0

variable {r : Registered} {e events : Mask} {fds : Finset Int} {fd : Int}

theorem mem_updateFd (fd' : Int) :
    fd' ∈ updateFd fd events e fds ↔ if fd' = fd then events &&& e ≠ 0 else fd' ∈ fds := by
  unfold updateFd
  split
  · rename_i hmem
    split
    · rename_i hclear
      rw [Finset.mem_erase]
      split
      · rename_i heq
        exact ⟨fun h => absurd heq h.1, fun h => absurd hclear h⟩
      · rename_i hne
        exact and_iff_right hne
    · rename_i hset
      split
      · rename_i heq
        exact ⟨fun _ => hset, fun _ => heq ▸ hmem⟩
      · exact Iff.rfl
  · rename_i hmem
    split
    · rename_i hset
      rw [Finset.mem_insert]
      split
      · rename_i heq
        exact ⟨fun _ => hset, fun _ => .inl heq⟩
      · rename_i hne
        exact or_iff_right hne
    · rename_i hclear
      split
      · rename_i heq
        subst heq
        exact ⟨fun h => absurd h hmem, fun h => absurd h hclear⟩
      · exact Iff.rfl

theorem Watches.update (h : Watches r e fds) (m : Option Mask) {fds' : Finset Int}
    (hself : fd ∈ fds' ↔ ∃ m', m = some m' ∧ m' &&& e ≠ 0)
    (hother : ∀ fd', fd' ≠ fd → (fd' ∈ fds' ↔ fd' ∈ fds)) :
    Watches (update r fd m) e fds' := by
  intro fd'
  by_cases hfd : fd' = fd
  · subst hfd
    rw [Function.update_self]
    exact hself
  · rw [Function.update_of_ne hfd, hother fd' hfd]
    exact h fd'

/-- No mask is the empty mask. -/
theorem Watches.updateFd (h : Watches r e fds) (m : Option Mask) :
    Watches (Function.update r fd m) e (updateFd fd (m.getD 0) e fds) := by
  refine h.update m ?_ ?_
  · rw [mem_updateFd, if_pos rfl]
    cases m with
    | none => simp
    | some events => simp
  · intro fd' hne
    rw [mem_updateFd, if_neg hne]

theorem Watches.add (h : Watches r e fds) (hnone : r fd = none) :
    Watches (Function.update r fd (some events)) e
      (if events &&& e ≠ 0 then insert fd fds else fds) := by
  have hfresh : fd ∉ fds := by
    rw [h fd, hnone]
    simp
  refine h.update (some events) ?_ ?_
  · split
    · rename_i hset
      exact ⟨fun _ => ⟨events, rfl, hset⟩, fun _ => Finset.mem_insert_self fd fds⟩
    · rename_i hclear
      refine ⟨fun hmem => absurd hmem hfresh, ?_⟩
      rintro ⟨m, hm, hset⟩
      cases hm
      exact absurd hset hclear
  · intro fd' hne
    split
    · rw [Finset.mem_insert, or_iff_right hne]
    · exact Iff.rfl

/-! ### The greatest descriptor -/

/-- The greatest registered descriptor, or zero if there is none. -/
def Greatest (r : Registered) (max : Int) : Prop :=
  IsGreatest {fd | (r fd).isSome} max ∨ r = Registered.empty ∧ max = 0

theorem Greatest.add {max : Int} (h : Greatest r max) (hfd : 0 ≤ fd) :
    Greatest (update r fd (some events)) (if max < fd then fd else max) := by
  left
  have hmem : ∀ fd', (update r fd (some events) fd').isSome ↔ fd' = fd ∨ (r fd').isSome := by
    intro fd'
    rw [Registered.isSome_update]
    by_cases heq : fd' = fd
    · simp [heq]
    · simp [heq]
  rcases h with ⟨hmax, hupper⟩ | ⟨rfl, rfl⟩
  · constructor
    · apply (hmem _).mpr
      split
      · exact .inl rfl
      · exact .inr hmax
    · intro fd' hfd'
      rcases (hmem fd').mp hfd' with rfl | hold
      · split
        · exact le_rfl
        · rename_i hle
          exact not_lt.mp hle
      · have hle : fd' ≤ max := hupper hold
        split
        · rename_i hlt
          exact hle.trans hlt.le
        · exact hle
  · have hmax : (if (0 : Int) < fd then fd else 0) = fd := by
      split
      · rfl
      · rename_i hle
        exact le_antisymm hfd (not_lt.mp hle)
    rw [hmax]
    constructor
    · exact (hmem fd).mpr (.inl rfl)
    · intro fd' hfd'
      rcases (hmem fd').mp hfd' with rfl | hold
      · exact le_rfl
      · cases hold

theorem Greatest.updateEvent {max : Int} (h : Greatest r max) (hknown : (r fd).isSome) :
    Greatest (update r fd (some events)) max := by
  have hsame : ∀ fd', (update r fd (some events) fd').isSome = (r fd').isSome := by
    intro fd'
    rw [Registered.isSome_update]
    split
    · rename_i heq
      rw [heq, hknown]
      rfl
    · rfl
  rcases h with h | ⟨rfl, -⟩
  · left
    simpa only [IsGreatest, hsame] using h
  · cases hknown

/-- The greatest descriptor of what remains, when it is not the one that goes. -/
theorem Greatest.rmHandle_of_ne {max : Int} (h : Greatest r max) (hknown : (r fd).isSome)
    (hne : fd ≠ max) : Greatest (update r fd none) max := by
  rcases h with ⟨hmax, hupper⟩ | ⟨rfl, -⟩
  · left
    constructor
    · change (update r fd none max).isSome = true
      rw [Function.update_of_ne hne.symm]
      exact hmax
    · intro fd' hfd'
      apply hupper
      change (update r fd none fd').isSome = true at hfd'
      rw [Registered.isSome_update] at hfd'
      split at hfd'
      · cases hfd'
      · exact hfd'
  · cases hknown

/-! ### The vector and the map -/

/-- `handles` as a function. -/
def positions (handles : Std.TreeMap Int Nat) (fd : Int) : Option Nat := handles[fd]?

theorem positions_insert (handles : Std.TreeMap Int Nat) (fd : Int) (i : Nat) :
    positions (handles.insert fd i) = update (positions handles) fd (some i) := by
  funext fd'
  rw [positions, Std.TreeMap.getElem?_insert]
  by_cases hfd : fd' = fd
  · simp [hfd]
  · simp [hfd, Ne.symm hfd, positions]

theorem positions_erase (handles : Std.TreeMap Int Nat) (fd : Int) :
    positions (handles.erase fd) = update (positions handles) fd none := by
  funext fd'
  rw [positions, Std.TreeMap.getElem?_erase]
  by_cases hfd : fd' = fd
  · simp [hfd]
  · simp [hfd, Ne.symm hfd, positions]

theorem mem_handles {handles : Std.TreeMap Int Nat} {fd : Int} :
    fd ∈ handles ↔ (positions handles fd).isSome :=
  Std.TreeMap.mem_iff_isSome_getElem?

/-- `Select` watches what is registered, in every part of its state. -/
structure Tracks (s : Select) (r : Registered) : Prop where
  exact : Indexed id s.allFds (positions s.handles)
  registered : ∀ fd, (positions s.handles fd).isSome = (r fd).isSome
  nonneg : r.Nonneg
  readFds : Watches r READ s.readFds
  writeFds : Watches r WRITE s.writeFds
  errorFds : Watches r ERROR s.errorFds
  maxFds : Greatest r s.maxFds

variable {s s' : Select}

theorem tracks_empty : Tracks {} Registered.empty where
  exact := Indexed.nil
  registered _ := rfl
  nonneg fd hfd := by cases hfd
  readFds fd := by simp [Registered.empty]
  writeFds fd := by simp [Registered.empty]
  errorFds fd := by simp [Registered.empty]
  maxFds := .inr ⟨rfl, rfl⟩

theorem Tracks.addHandle (h : s.Tracks r) (hfd : 0 ≤ fd) (hnone : r fd = none) :
    ∃ s', s.addHandle fd events = .ok s' ∧ s'.Tracks (update r fd (some events)) := by
  have hfresh : positions s.handles fd = none := by
    rw [← Option.not_isSome_iff_eq_none, h.registered, hnone]
    simp
  have hlegal : ¬ (fd = -1 ∨ fd ∈ s.handles) := by
    rw [mem_handles, hfresh]
    simp
    omega
  have hlength : (s.allFds ++ [fd]).length - 1 = s.allFds.length := by simp
  refine ⟨_, if_neg hlegal, ?_⟩
  constructor
  · rw [hlength, positions_insert]
    exact Indexed.append h.exact hfresh
  · intro fd'
    rw [hlength, positions_insert, Registered.isSome_update, Function.update_apply]
    split
    · rfl
    · exact h.registered fd'
  · exact h.nonneg.update fun _ => hfd
  · exact h.readFds.add hnone
  · exact h.writeFds.add hnone
  · exact h.errorFds.add hnone
  · exact h.maxFds.add hfd

theorem Tracks.updateEvent (h : s.Tracks r) (hknown : (r fd).isSome) :
    ∃ s', s.updateEvent fd events = .ok s' ∧ s'.Tracks (update r fd (some events)) := by
  have hfd := h.nonneg fd hknown
  have hlegal : fd ≠ -1 := by omega
  refine ⟨_, if_neg hlegal, ?_⟩
  constructor
  · exact h.exact
  · intro fd'
    rw [Registered.isSome_update]
    split
    · rename_i heq
      subst heq
      exact (h.registered fd').trans hknown
    · exact h.registered fd'
  · exact h.nonneg.update fun _ => hfd
  · exact h.readFds.updateFd (some events)
  · exact h.writeFds.updateFd (some events)
  · exact h.errorFds.updateFd (some events)
  · exact h.maxFds.updateEvent hknown

/-- The map's greatest key is the greatest registered descriptor. -/
theorem isGreatest_maxKeyD {allFds : List Int} {handles : Std.TreeMap Int Nat}
    (hexact : Indexed id allFds (positions handles))
    (hregistered : ∀ fd, (positions handles fd).isSome = (r fd).isSome) (hne : allFds ≠ [])
    (fallback : Int) : IsGreatest {fd | (r fd).isSome} (handles.maxKeyD fallback) := by
  have hkeys : ∀ fd, fd ∈ handles ↔ (r fd).isSome := by
    intro fd
    rw [mem_handles, hregistered]
  obtain ⟨fd, hfd⟩ := List.exists_mem_of_ne_nil _ hne
  obtain ⟨i, hi⟩ := List.mem_iff_getElem?.mp hfd
  have hmem : fd ∈ handles := by
    rw [mem_handles]
    have hindex : positions handles (id fd) = some i := hexact.index_eq hi
    rw [id_eq] at hindex
    rw [hindex]
    rfl
  constructor
  · apply (hkeys _).mp
    exact Std.TreeMap.maxKeyD_mem (Std.TreeMap.isEmpty_eq_false_iff_exists_mem.mpr ⟨fd, hmem⟩)
  · intro fd' hfd'
    exact Std.isLE_compare.mp (Std.TreeMap.le_maxKeyD_of_mem ((hkeys fd').mpr hfd'))

theorem eq_empty_of_nil {handles : Std.TreeMap Int Nat}
    (hexact : Indexed id [] (positions handles))
    (hregistered : ∀ fd, (positions handles fd).isSome = (r fd).isSome) :
    r = Registered.empty := by
  funext fd
  by_contra hne
  have hsome : (positions handles fd).isSome = true := by
    rw [hregistered]
    exact Option.isSome_iff_ne_none.mpr hne
  obtain ⟨i, hi⟩ := Option.isSome_iff_exists.mp hsome
  exact Nat.not_lt_zero i (hexact.lt_length hi)

theorem Greatest.rmHandle {max : Int} (h : Greatest r max) (hknown : (r fd).isSome)
    {allFds : List Int} {handles : Std.TreeMap Int Nat}
    (hexact : Indexed id allFds (positions handles))
    (hregistered : ∀ fd', (positions handles fd').isSome = (update r fd none fd').isSome) :
    Greatest (update r fd none)
      (if allFds = [] then 0 else if fd = max then handles.maxKeyD max else max) := by
  split
  · rename_i hnil
    subst hnil
    exact .inr ⟨eq_empty_of_nil hexact hregistered, rfl⟩
  · rename_i hne
    split
    · exact .inl (isGreatest_maxKeyD hexact hregistered hne max)
    · rename_i hmax
      exact h.rmHandle_of_ne hknown hmax

theorem Tracks.rmHandle (h : s.Tracks r) (hknown : (r fd).isSome) :
    ∃ s', s.rmHandle fd = .ok s' ∧ s'.Tracks (update r fd none) := by
  have hsome := h.registered fd
  rw [hknown] at hsome
  obtain ⟨idx, hidx⟩ := Option.isSome_iff_exists.mp hsome
  have hlt := h.exact.lt_length hidx
  have hne : s.allFds ≠ [] := List.ne_nil_of_length_pos (Nat.zero_lt_of_lt hlt)
  have hlast := List.getLast?_eq_getLast_of_ne_nil hne
  have hhandles : s.handles[fd]? = some idx := hidx
  simp only [Select.rmHandle, hhandles, hlast, Except.ok.injEq, exists_eq_left']
  have hregistered : ∀ handles : Std.TreeMap Int Nat,
      (∀ fd', fd' ≠ fd → (positions handles fd').isSome = (positions s.handles fd').isSome) →
      ∀ fd', (positions (handles.erase fd) fd').isSome = (update r fd none fd').isSome := by
    intro handles hother fd'
    rw [positions_erase, Registered.isSome_update]
    split
    · rename_i heq
      rw [heq, Function.update_self]
      rfl
    · rename_i hfd
      rw [Function.update_of_ne hfd, hother fd' hfd, h.registered]
  split
  · rename_i hmoved
    have hexact := Indexed.swap h.exact hidx hlast hmoved.2
    rw [id_eq, ← positions_insert, ← positions_erase] at hexact
    have hkeys := hregistered (s.handles.insert (s.allFds.getLast hne) idx) (by
      intro fd' hfd'
      rw [positions_insert, Function.update_apply]
      split
      · rename_i heq
        rw [List.getLast?_eq_getElem?] at hlast
        have hindex : positions s.handles (id (s.allFds.getLast hne)) = _ := h.exact.index_eq hlast
        rw [heq, ← id_eq (s.allFds.getLast hne), hindex]
        rfl
      · rfl)
    exact ⟨hexact, hkeys, h.nonneg.update (by simp), h.readFds.updateFd none,
      h.writeFds.updateFd none, h.errorFds.updateFd none, h.maxFds.rmHandle hknown hexact hkeys⟩
  · rename_i hmoved
    have hend : idx + 1 = s.allFds.length := by
      by_contra hinner
      exact hmoved ⟨by omega, hinner⟩
    have hexact := Indexed.dropLast h.exact hidx hend
    rw [← positions_erase] at hexact
    have hkeys := hregistered s.handles fun _ _ => rfl
    exact ⟨hexact, hkeys, h.nonneg.update (by simp), h.readFds.updateFd none,
      h.writeFds.updateFd none, h.errorFds.updateFd none, h.maxFds.rmHandle hknown hexact hkeys⟩

theorem refines : selector.Refines Tracks where
  addHandle h hfd hnone := h.addHandle hfd hnone
  updateEvent h hknown := h.updateEvent hknown
  rmHandle h hknown := h.rmHandle hknown

end Select

namespace Poll

def selector : Selector Poll Abort := ⟨addHandle, updateEvent, rmHandle⟩

/-- `Poll` watches what is registered. -/
structure Tracks (s : Poll) (r : Registered) : Prop where
  exact : s.Exact
  interest : ∀ fd, s.interest fd = (r fd).map toPollEvent
  nonneg : r.Nonneg

variable {s s' : Poll} {r : Registered} {fd : Int} {events : Mask}

theorem tracks_empty : Tracks {} Registered.empty where
  exact := exact_empty
  interest _ := rfl
  nonneg fd hfd := by cases hfd

theorem Tracks.isSome (h : s.Tracks r) (fd : Int) : (s.handles fd).isSome = (r fd).isSome := by
  rw [← h.exact.interest_isSome, h.interest, Option.isSome_map]

theorem Tracks.update (h : s.Tracks r) (hexact : s'.Exact) {m : Option Mask}
    (hinterest : s'.interest = update s.interest fd (m.map toPollEvent))
    (hfd : m.isSome → 0 ≤ fd) : s'.Tracks (update r fd m) where
  exact := hexact
  interest fd' := by
    rw [hinterest]
    exact Registered.map_update h.interest fd m fd'
  nonneg := h.nonneg.update hfd

theorem refines : selector.Refines Tracks where
  addHandle := by
    intro s r fd events h hfd hnone
    have hsome := h.isSome fd
    rw [hnone] at hsome
    have hlegal : ¬ (fd = -1 ∨ (s.handles fd).isSome) := by
      rw [hsome]
      simp
      omega
    obtain ⟨hexact, -, -, hinterest⟩ := h.exact.addHandle (if_neg hlegal)
    exact ⟨_, if_neg hlegal, h.update hexact (m := some events) hinterest fun _ => hfd⟩
  updateEvent := by
    intro s r fd events h hknown
    have hfd := h.nonneg fd hknown
    obtain ⟨idx, hidx⟩ := Option.isSome_iff_exists.mp ((h.isSome fd).trans hknown)
    have hlegal : fd ≠ -1 := by omega
    have hok : ∃ s', s.updateEvent fd events = .ok s' := by
      rw [Poll.updateEvent, hidx]
      exact ⟨_, if_neg hlegal⟩
    obtain ⟨s', hs'⟩ := hok
    obtain ⟨hexact, -, hinterest⟩ := h.exact.updateEvent hs'
    exact ⟨s', hs', h.update hexact (m := some events) hinterest fun _ => hfd⟩
  rmHandle := by
    intro s r fd h hknown
    obtain ⟨idx, hidx⟩ := Option.isSome_iff_exists.mp ((h.isSome fd).trans hknown)
    have hne : s.pollfds ≠ [] := by
      intro hnil
      have hlt := Indexed.lt_length h.exact hidx
      rw [hnil] at hlt
      exact Nat.not_lt_zero idx hlt
    have hok : ∃ s', s.rmHandle fd = .ok s' := by
      rw [Poll.rmHandle, hidx, List.getLast?_eq_getLast_of_ne_nil hne]
      exact ⟨_, rfl⟩
    obtain ⟨s', hs'⟩ := hok
    obtain ⟨hexact, -, hinterest⟩ := h.exact.rmHandle hs'
    exact ⟨s', hs', h.update hexact (m := none) hinterest (by simp)⟩

/-- The entry of a registered descriptor. -/
theorem Tracks.entry (h : s.Tracks r) {i : Nat} (hi : s.handles fd = some i) :
    ∃ m, r fd = some m ∧ s.pollfds[i]? = some ⟨fd, toPollEvent m⟩ := by
  obtain ⟨m, hm⟩ := Option.isSome_iff_exists.mp ((h.isSome fd).symm.trans (by rw [hi]; rfl))
  have hinterest := h.interest fd
  rw [hm, Poll.interest, lookup, hi] at hinterest
  obtain ⟨p, hp, hevents⟩ := Option.map_eq_some_iff.mp hinterest
  have hfd := Indexed.key_eq h.exact hi hp
  cases p
  cases hfd
  cases hevents
  exact ⟨m, hm, hp⟩

end Poll

/-! ### Both tables -/

/-- `handles` takes the registered descriptors onto the positions below `n`, one to
one. -/
structure Numbers (handles : Int → Option Nat) (r : Registered) (n : Nat) : Prop where
  keys : ∀ fd, (handles fd).isSome = (r fd).isSome
  bijOn : Set.BijOn handles {fd | (r fd).isSome} (some '' Set.Iio n)

theorem numbers_of_indexed {β : Type} {key : β → Int} {items : List β}
    {handles : Int → Option Nat} {r : Registered} (h : Indexed key items handles)
    (hkeys : ∀ fd, (handles fd).isSome = (r fd).isSome) : Numbers handles r items.length where
  keys := hkeys
  bijOn := by
    have hbij := h.bijOn
    simp only [hkeys] at hbij
    exact hbij

/-- After every sequence of calls that may be made, `Poll` and `Select` hold
exactly what is registered, with the masks last given. -/
theorem tables_exact {calls : List SelectorCall} {r : Registered}
    (hrun : exec Registered.step .empty calls = .ok r) :
    (∃ s : Poll, exec Poll.selector.step {} calls = .ok s ∧
      Numbers s.handles r s.pollfds.length ∧
      ∀ fd i, s.handles fd = some i →
        ∃ m, r fd = some m ∧ s.pollfds[i]? = some ⟨fd, Poll.toPollEvent m⟩) ∧
    ∃ s : Select, exec Select.selector.step {} calls = .ok s ∧
      Numbers (Select.positions s.handles) r s.allFds.length ∧
      (∀ fd i, Select.positions s.handles fd = some i → s.allFds[i]? = some fd) ∧
      Select.Watches r READ s.readFds ∧ Select.Watches r WRITE s.writeFds ∧
      Select.Watches r ERROR s.errorFds ∧ Select.Greatest r s.maxFds := by
  constructor
  · obtain ⟨s, hs, h⟩ := Poll.refines.exec_ok Poll.tracks_empty hrun
    exact ⟨s, hs, numbers_of_indexed h.exact h.isSome, fun fd i hi => h.entry hi⟩
  · obtain ⟨s, hs, h⟩ := Select.refines.exec_ok Select.tracks_empty hrun
    refine ⟨s, hs, numbers_of_indexed h.exact h.registered, ?_, h.readFds, h.writeFds,
      h.errorFds, h.maxFds⟩
    intro fd i hi
    have hkey := (h.exact fd i).mp hi
    rwa [Option.map_id] at hkey

/-- The last descriptor moves into the place of the first, and then the greatest
goes. -/
theorem tables_exact_moved :
    ∃ s : Select, exec Select.selector.step {}
        [.addHandle 3 READ, .addHandle 9 READ, .addHandle 5 (READ ||| WRITE), .rmHandle 3,
          .updateEvent 5 WRITE, .rmHandle 9] = .ok s ∧
      5 ∉ s.readFds ∧ 5 ∈ s.writeFds ∧ s.maxFds = 5 := by
  have hrun : exec Registered.step .empty
      [.addHandle 3 READ, .addHandle 9 READ, .addHandle 5 (READ ||| WRITE), .rmHandle 3,
        .updateEvent 5 WRITE, .rmHandle 9] =
      .ok (update (update (update (update (update (update Registered.empty 3 (some READ)) 9
        (some READ)) 5 (some (READ ||| WRITE))) 3 none) 5 (some WRITE)) 9 none) := rfl
  obtain ⟨-, s, hs, -, -, hread, hwrite, -, hmax⟩ := tables_exact hrun
  refine ⟨s, hs, ?_, (hwrite 5).mpr ⟨WRITE, rfl, by decide⟩, ?_⟩
  · rw [hread 5]
    rintro ⟨m, hm, hset⟩
    cases hm
    exact absurd hset (by decide)
  · rcases hmax with ⟨hmem, -⟩ | ⟨hempty, -⟩
    · by_contra hne
      change Option.isSome _ = true at hmem
      simp only [Registered.isSome_update, Registered.empty] at hmem
      split at hmem <;> simp_all
    · cases congrFun hempty 5

end MixServer.Net
