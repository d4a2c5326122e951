import Mathlib.Data.List.TakeWhile
import Mathlib.Tactic.Linarith
import Mathlib.Tactic.Ring

/-!
Integers as byte strings: the little-endian layout of a word in memory and the
big-endian layout of network formats, with their round trips, and the signed
reading of a 32-bit word. Then byte strings as C sees them, up to the first zero.
-/

namespace Lib

/-- A string of bytes. -/
abbrev Bytes := List UInt8

/-! ### Little-endian words -/

/-- The `w` low-order bytes of `n`, least significant first. -/
def leBytes : Nat → Nat → Bytes
  | 0, _ => []
  | w + 1, n => UInt8.ofNat n :: leBytes w (n / 256)

/-- The number a byte string denotes, least significant byte first. -/
def ofLe : Bytes → Nat
  | [] => 0
  | b :: bs => b.toNat + 256 * ofLe bs

@[simp] theorem length_leBytes (w n : Nat) : (leBytes w n).length = w := by
  induction w generalizing n with
  | zero => rfl
  | succ w ih => simp [leBytes, ih]

theorem ofLe_lt (bs : Bytes) : ofLe bs < 256 ^ bs.length := by
  induction bs with
  | nil => simp [ofLe]
  | cons b bs ih =>
    have hb : b.toNat < 256 := b.toNat_lt
    simp only [ofLe, List.length_cons, pow_succ]
    omega

theorem ofLe_eq_zero_iff {bs : Bytes} : ofLe bs = 0 ↔ ∀ b ∈ bs, b = 0 := by
  induction bs with
  | nil => simp [ofLe]
  | cons b bs ih =>
    have hb : b.toNat = 0 ↔ b = 0 := UInt8.toNat_inj (a := b) (b := 0)
    rw [List.forall_mem_cons, ← ih, ← hb, ofLe]
    omega

theorem ofLe_leBytes {w n : Nat} (h : n < 256 ^ w) : ofLe (leBytes w n) = n := by
  induction w generalizing n with
  | zero => simp only [pow_zero] at h; simp only [leBytes, ofLe]; omega
  | succ w ih =>
    have hdiv : n / 256 < 256 ^ w := by
      rw [pow_succ] at h
      exact Nat.div_lt_of_lt_mul (by omega)
    simp only [leBytes, ofLe, ih hdiv, UInt8.toNat_ofNat']
    omega

/-- A word written over a byte string of its own width gives the string back. -/
theorem leBytes_ofLe (bs : Bytes) : leBytes bs.length (ofLe bs) = bs := by
  induction bs with
  | nil => rfl
  | cons b bs ih =>
    have hb : b.toNat < 256 := b.toNat_lt
    have hquot : (b.toNat + 256 * ofLe bs) / 256 = ofLe bs := by omega
    have hrem : UInt8.ofNat (b.toNat + 256 * ofLe bs) = b := by
      apply UInt8.toNat_inj.mp
      rw [UInt8.toNat_ofNat']
      omega
    simp only [List.length_cons, ofLe, leBytes, hquot, ih, hrem]

/-! ### Big-endian words -/

/-- The `w` low-order bytes of `n`, most significant first. -/
def beBytes (w n : Nat) : Bytes := (leBytes w n).reverse

/-- The number a byte string denotes, most significant byte first. -/
def ofBe (bs : Bytes) : Nat := ofLe bs.reverse

@[simp] theorem length_beBytes (w n : Nat) : (beBytes w n).length = w := by
  simp [beBytes]

theorem ofBe_beBytes {w n : Nat} (h : n < 256 ^ w) : ofBe (beBytes w n) = n := by
  simp [ofBe, beBytes, ofLe_leBytes h]

theorem ofBe_lt (bs : Bytes) : ofBe bs < 256 ^ bs.length := by
  simpa [ofBe] using ofLe_lt bs.reverse

/-! ### Signed words -/

/-- A 32-bit word read as a signed integer (two's complement). -/
def int32 (n : Nat) : Int := if n < 2 ^ 31 then n else n - (2 ^ 32 : Nat)

theorem int32_of_lt {n : Nat} (h : n < 2 ^ 31) : int32 n = n := if_pos h

/-- A word that reads positive is its own value. -/
theorem int32_pos {n : Nat} (h : n < 2 ^ 32) (hpos : 0 < int32 n) :
    int32 n = n ∧ n < 2 ^ 31 := by
  unfold int32 at hpos ⊢
  split at hpos
  · rename_i hlt
    exact ⟨if_pos hlt, hlt⟩
  · omega

/-- A 32-bit vector as its word in memory reads as a signed integer. -/
theorem int32_toNat (b : BitVec 32) : int32 b.toNat = b.toInt := by
  rw [int32, BitVec.toInt_eq_toNat_cond]
  split
  · rw [if_pos (by omega)]
  · rw [if_neg (by omega)]

/-! ### C strings -/

/-- The bytes of a string literal. -/
def text (s : String) : Bytes := s.toUTF8.toList

/-- What a C string pointer at the bytes denotes. -/
def cString (bs : Bytes) : Bytes := bs.takeWhile (· ≠ 0)

def strlen (bs : Bytes) : Nat := (cString bs).length

theorem cString_eq_self {bs : Bytes} (h : 0 ∉ bs) : cString bs = bs := by
  apply List.takeWhile_eq_self_iff.mpr
  intro b hb
  simp only [decide_eq_true_eq]
  rintro rfl
  exact h hb

theorem zero_notMem_cString (bs : Bytes) : 0 ∉ cString bs := by
  intro hmem
  have hne := List.mem_takeWhile_imp hmem
  rw [decide_eq_true_iff] at hne
  exact hne rfl

theorem strlen_eq_length_iff {bs : Bytes} : strlen bs = bs.length ↔ 0 ∉ bs := by
  constructor
  · intro hlen hzero
    have hself : cString bs = bs := (List.takeWhile_prefix _).eq_of_length hlen
    have hne := List.takeWhile_eq_self_iff.mp hself 0 hzero
    simp at hne
  · intro h
    rw [strlen, cString_eq_self h]

end Lib
