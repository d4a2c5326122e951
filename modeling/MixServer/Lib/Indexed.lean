import Mathlib.Data.List.Nodup
import Mathlib.Data.Set.Function
import Mathlib.Logic.Function.Basic
import Mathlib.Order.Interval.Set.Defs
import Mathlib.Order.Lattice

/-!
A table kept in a vector, with a map from keys to positions.

`Indexed key items index` says that `index` finds the items under their keys, and
nothing else. Appending an item, replacing one in place, and removing one by
moving the last item into its position keep it. Read through the index with
`lookup`, they are the insertion, the replacement and the removal of a finite
map.
-/

namespace Lib

open Function (update)

variable {κ β : Type*}

/-- `index` is the position of each key among `items`. -/
def Indexed (key : β → κ) (items : List β) (index : κ → Option Nat) : Prop :=
  ∀ k i, index k = some i ↔ items[i]?.map key = some k

/-- The item that `index` finds under a key. -/
def lookup (items : List β) (index : κ → Option Nat) (k : κ) : Option β :=
  (index k).bind fun i => items[i]?

namespace Indexed

variable {key : β → κ} {items : List β} {index : κ → Option Nat} {k : κ} {i : Nat} {b : β}

theorem nil : Indexed key [] fun _ => none := by
  intro k i
  simp

theorem key_eq (h : Indexed key items index) (hk : index k = some i) (hb : items[i]? = some b) :
    key b = k := by
  have hkey := (h k i).mp hk
  rw [hb] at hkey
  exact Option.some.inj hkey

theorem index_eq (h : Indexed key items index) (hb : items[i]? = some b) :
    index (key b) = some i := by
  rw [h, hb]
  rfl

theorem lt_length (h : Indexed key items index) (hk : index k = some i) : i < items.length := by
  by_contra hle
  have hkey := (h k i).mp hk
  rw [List.getElem?_eq_none (not_lt.mp hle)] at hkey
  cases hkey

theorem lookup_eq_some_iff (h : Indexed key items index) :
    lookup items index k = some b ↔ b ∈ items ∧ key b = k := by
  constructor
  · intro hb
    obtain ⟨i, hk, hi⟩ := Option.bind_eq_some_iff.mp hb
    exact ⟨List.mem_of_getElem? hi, h.key_eq hk hi⟩
  · rintro ⟨hmem, rfl⟩
    obtain ⟨i, hi⟩ := List.mem_iff_getElem?.mp hmem
    rw [lookup, h.index_eq hi]
    exact hi

theorem lookup_isSome (h : Indexed key items index) :
    (lookup items index k).isSome = (index k).isSome := by
  cases hk : index k with
  | none => simp [lookup, hk]
  | some i => simp [lookup, hk, h.lt_length hk]

/-- No key stands twice. -/
theorem nodup (h : Indexed key items index) : (items.map key).Nodup := by
  apply List.nodup_iff_injective_get.mpr
  intro i j heq
  have hkey : ∀ i : Fin (items.map key).length, index ((items.map key).get i) = some (i : Nat) := by
    intro i
    have hlt : i.val < items.length := by simpa using i.isLt
    rw [h, List.getElem?_eq_getElem hlt]
    simp
  have hi := hkey i
  rw [heq, hkey j] at hi
  exact Fin.ext (Option.some.inj hi).symm

/-- The index numbers its keys by the positions of the items, one to one. -/
theorem bijOn (h : Indexed key items index) :
    Set.BijOn index {k | (index k).isSome} (some '' Set.Iio items.length) := by
  refine ⟨?_, ?_, ?_⟩
  · intro k hk
    obtain ⟨i, hi⟩ := Option.isSome_iff_exists.mp hk
    exact ⟨i, h.lt_length hi, hi.symm⟩
  · intro k hk k' _ heq
    obtain ⟨i, hi⟩ := Option.isSome_iff_exists.mp hk
    have hkey := (h k i).mp hi
    rw [(h k' i).mp (heq ▸ hi)] at hkey
    exact (Option.some.inj hkey).symm
  · rintro _ ⟨i, hi, rfl⟩
    have hitem := h.index_eq (List.getElem?_eq_getElem hi)
    refine ⟨key items[i], ?_, hitem⟩
    change (index (key items[i])).isSome = true
    rw [hitem]
    rfl

/-- Only the key of the last item loses its position with the last item. -/
theorem front_iff (hlast : items[items.length - 1]?.map key = some k) {k' : κ} (hk : k' ≠ k)
    (j : Nat) : (if j < items.length - 1 then items[j]? else none).map key = some k' ↔
      items[j]?.map key = some k' := by
  split
  · rfl
  · rename_i hj
    constructor
    · intro hkey
      cases hkey
    · intro hkey
      obtain ⟨x, hx, -⟩ := Option.map_eq_some_iff.mp hkey
      have hlt := (List.getElem?_eq_some_iff.mp hx).1
      obtain rfl : j = items.length - 1 := by omega
      rw [hlast] at hkey
      exact absurd (Option.some.inj hkey).symm hk

variable [DecidableEq κ]

/-! ### Appending -/

theorem append (h : Indexed key items index) (hb : index (key b) = none) :
    Indexed key (items ++ [b]) (update index (key b) (some items.length)) := by
  intro k i
  rcases lt_trichotomy i items.length with hi | rfl | hi
  · rw [List.getElem?_append_left hi, ← h]
    by_cases hk : k = key b
    · subst hk
      simp [hb, hi.ne']
    · simp [hk]
  · have hfresh : ∀ k, index k ≠ some items.length := fun k hk => (h.lt_length hk).ne rfl
    by_cases hk : k = key b
    · simp [hk]
    · simpa [hk, hfresh] using Ne.symm hk
  · have hout : index k ≠ some i := fun hk => (h.lt_length hk).not_gt hi
    rw [List.getElem?_eq_none (by simpa using Nat.succ_le_of_lt hi)]
    by_cases hk : k = key b
    · simpa [hk] using hi.ne
    · simpa [hk] using hout

theorem lookup_append (h : Indexed key items index) :
    lookup (items ++ [b]) (update index (key b) (some items.length)) =
      update (lookup items index) (key b) (some b) := by
  funext k
  by_cases hk : k = key b
  · simp [lookup, hk]
  · cases hi : index k with
    | none => simp [lookup, hk, hi]
    | some i => simp [lookup, hk, hi, List.getElem?_append_left (h.lt_length hi)]

/-! ### Replacing -/

omit [DecidableEq κ] in
theorem set (h : Indexed key items index) (hi : index (key b) = some i) :
    Indexed key (items.set i b) index := by
  intro k j
  rw [h]
  by_cases hj : j = i
  · subst hj
    have hold := (h _ _).mp hi
    rw [hold, List.getElem?_set_self (h.lt_length hi)]
    rfl
  · rw [List.getElem?_set_ne (Ne.symm hj)]

theorem lookup_set (h : Indexed key items index) (hi : index (key b) = some i) :
    lookup (items.set i b) index = update (lookup items index) (key b) (some b) := by
  funext k
  by_cases hk : k = key b
  · simp [lookup, hk, hi, List.getElem?_set_self (h.lt_length hi)]
  · cases hj : index k with
    | none => simp [lookup, hk, hj]
    | some j =>
      have hne : i ≠ j := by
        rintro rfl
        exact hk (Option.some.inj (((h _ _).mp hj).symm.trans ((h _ _).mp hi)))
      simp [lookup, hk, hj, List.getElem?_set_ne hne]

/-! ### Removing -/

/-- The last item goes. -/
theorem dropLast (h : Indexed key items index) (hi : index k = some i)
    (hlast : i + 1 = items.length) : Indexed key items.dropLast (update index k none) := by
  intro k' j
  rw [List.getElem?_dropLast]
  by_cases hk : k' = k
  · subst hk
    split
    · rename_i hj
      rw [← h, hi]
      simp
      omega
    · simp
  · rw [Function.update_of_ne hk, h]
    obtain rfl : i = items.length - 1 := by omega
    exact (front_iff ((h _ _).mp hi) hk j).symm

/-- The last item takes the place of the one that goes. -/
theorem swap (h : Indexed key items index) (hi : index k = some i)
    (hlast : items.getLast? = some b) (hne : i + 1 ≠ items.length) :
    Indexed key (items.set i b).dropLast (update (update index (key b) (some i)) k none) := by
  have hilt := h.lt_length hi
  rw [List.getLast?_eq_getElem?] at hlast
  have hb := h.index_eq hlast
  have hkb : key b ≠ k := by
    rintro rfl
    rw [hi] at hb
    cases hb
    omega
  intro k' j
  rw [List.getElem?_dropLast, List.length_set]
  by_cases hk : k' = k
  · subst hk
    rw [Function.update_self]
    split
    · rename_i hj
      by_cases hji : j = i
      · subst hji
        simpa [hilt] using hkb
      · rw [List.getElem?_set_ne (Ne.symm hji), ← h, hi]
        simpa using Ne.symm hji
    · simp
  · rw [Function.update_of_ne hk]
    by_cases hkb' : k' = key b
    · subst hkb'
      rw [Function.update_self]
      by_cases hji : j = i
      · subst hji
        rw [if_pos (by omega), List.getElem?_set_self hilt]
        simp
      · rw [List.getElem?_set_ne (Ne.symm hji)]
        split
        · rename_i hj
          rw [← h, hb]
          simp
          omega
        · simpa using Ne.symm hji
    · rw [Function.update_of_ne hkb', h]
      by_cases hji : j = i
      · subst hji
        rw [if_pos (by omega), List.getElem?_set_self hilt, (h _ _).mp hi]
        simp [Ne.symm hk, Ne.symm hkb']
      · rw [List.getElem?_set_ne (Ne.symm hji)]
        exact (front_iff (by rw [hlast]; rfl) hkb' j).symm

theorem lookup_dropLast (h : Indexed key items index) (hi : index k = some i)
    (hlast : i + 1 = items.length) :
    lookup items.dropLast (update index k none) = update (lookup items index) k none := by
  funext k'
  by_cases hk : k' = k
  · simp [lookup, hk]
  · cases hj : index k' with
    | none => simp [lookup, hk, hj]
    | some j =>
      have hne : j ≠ i := by
        rintro rfl
        exact hk (Option.some.inj (((h _ _).mp hj).symm.trans ((h _ _).mp hi)))
      have hlt := h.lt_length hj
      simp only [lookup, ne_eq, hk, not_false_eq_true, Function.update_of_ne, hj,
        Option.bind_some, List.getElem?_dropLast]
      rw [if_pos (by omega)]

theorem lookup_swap (h : Indexed key items index) (hi : index k = some i)
    (hlast : items.getLast? = some b) (hne : i + 1 ≠ items.length) :
    lookup (items.set i b).dropLast (update (update index (key b) (some i)) k none) =
      update (lookup items index) k none := by
  have hilt := h.lt_length hi
  rw [List.getLast?_eq_getElem?] at hlast
  have hb := h.index_eq hlast
  funext k'
  by_cases hk : k' = k
  · simp [lookup, hk]
  · rw [lookup, Function.update_of_ne hk, Function.update_of_ne hk]
    by_cases hkb : k' = key b
    · subst hkb
      rw [Function.update_self, Option.bind_some, List.getElem?_dropLast, List.length_set,
        if_pos (by omega), List.getElem?_set_self hilt, lookup, hb, Option.bind_some, hlast]
    · rw [Function.update_of_ne hkb, lookup]
      cases hj : index k' with
      | none => rfl
      | some j =>
        have hji : j ≠ i := by
          rintro rfl
          exact hk (Option.some.inj (((h _ _).mp hj).symm.trans ((h _ _).mp hi)))
        have hjlast : j ≠ items.length - 1 := by
          rintro rfl
          exact hkb (h.key_eq hj hlast).symm
        have hlt := h.lt_length hj
        rw [Option.bind_some, Option.bind_some, List.getElem?_dropLast, List.length_set,
          if_pos (by omega), List.getElem?_set_ne (Ne.symm hji)]

end Indexed

end Lib
