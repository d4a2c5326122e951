import Mathlib.Data.BitVec

/-!
Single bits of masks, as C tests them: a mask and `twoPow w i` have a bit in common
exactly if bit `i` of the mask is set.
-/

namespace Lib

open BitVec (twoPow)

variable {w i : Nat} {m v : BitVec w}

theorem twoPow_ne_zero (hi : i < w) : twoPow w i ≠ 0 := by
  intro hzero
  have hbit := congrArg (fun m => m.getLsbD i) hzero
  simp [hi] at hbit

theorem and_twoPow_ne_zero (hi : i < w) : m &&& twoPow w i ≠ 0 ↔ m.getLsbD i := by
  rw [BitVec.and_twoPow]
  split
  · rename_i hbit
    simpa [hbit] using twoPow_ne_zero hi
  · rename_i hbit
    simp [hbit]

/-- Masking with one bit leaves the bit or nothing. -/
theorem and_twoPow_eq (hi : i < w) :
    m &&& twoPow w i = if m &&& twoPow w i ≠ 0 then twoPow w i else 0 := by
  split
  · rename_i hbit
    rw [BitVec.and_twoPow, if_pos ((and_twoPow_ne_zero hi).mp hbit)]
  · rename_i hclear
    exact not_not.mp hclear

theorem and_and_twoPow_ne_zero (hi : i < w) :
    m &&& v &&& twoPow w i ≠ 0 ↔ m &&& twoPow w i ≠ 0 ∧ v &&& twoPow w i ≠ 0 := by
  rw [and_twoPow_ne_zero hi, and_twoPow_ne_zero hi, and_twoPow_ne_zero hi, BitVec.getLsbD_and,
    Bool.and_eq_true]

theorem or_and_twoPow_ne_zero (hi : i < w) :
    (m ||| v) &&& twoPow w i ≠ 0 ↔ m &&& twoPow w i ≠ 0 ∨ v &&& twoPow w i ≠ 0 := by
  rw [and_twoPow_ne_zero hi, and_twoPow_ne_zero hi, and_twoPow_ne_zero hi, BitVec.getLsbD_or,
    Bool.or_eq_true]

end Lib
