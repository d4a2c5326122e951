import MixServer.Lib.Bytes

/-!
Base-128 varints: a number as groups of seven bits, the lowest first, and every byte but
the last with its high bit set.

`readVarint_writeVarint` is the round trip, whatever follows.
-/

namespace Lib

/-- The varint of `n`, in at most `k + 1` bytes. -/
def writeVarint : Nat → Nat → Bytes
  | 0, n => [UInt8.ofNat n]
  | k + 1, n =>
      if n < 128 then [UInt8.ofNat n]
      else UInt8.ofNat (n % 128 + 128) :: writeVarint k (n / 128)

/-- The number that a varint of at most `k + 1` bytes denotes, and what follows it; nothing
when the bytes end before it does. -/
def readVarint : Nat → Bytes → Option (Nat × Bytes)
  | _, [] => none
  | 0, b :: bs => if b.toNat < 128 then some (b.toNat, bs) else none
  | k + 1, b :: bs =>
      if b.toNat < 128 then some (b.toNat, bs)
      else (readVarint k bs).map fun (n, rest) => (b.toNat - 128 + 128 * n, rest)

variable {k n : Nat}

theorem writeVarint_small (k : Nat) (h : n < 128) : writeVarint k n = [UInt8.ofNat n] := by
  cases k with
  | zero => rfl
  | succ k => rw [writeVarint, if_pos h]

theorem toNat_ofNat_small (h : n < 256) : (UInt8.ofNat n).toNat = n := by
  rw [UInt8.toNat_ofNat']
  omega

theorem div_lt_pow (h : n < 128 ^ (k + 2)) : n / 128 < 128 ^ (k + 1) := by
  rw [pow_succ] at h
  omega

/-- **The round trip of a varint.** -/
theorem readVarint_writeVarint (h : n < 128 ^ (k + 1)) (rest : Bytes) :
    readVarint k (writeVarint k n ++ rest) = some (n, rest) := by
  induction k generalizing n with
  | zero =>
    rw [zero_add, pow_one] at h
    simp [writeVarint, readVarint, toNat_ofNat_small (by omega : n < 256), h]
  | succ k ih =>
    rw [writeVarint]
    split
    · rename_i hsmall
      simp [readVarint, toNat_ofNat_small (by omega : n < 256), hsmall]
    · have hbyte := toNat_ofNat_small (by omega : n % 128 + 128 < 256)
      have hlarge : ¬ n % 128 + 128 < 128 := by omega
      have hn : n % 128 + 128 - 128 + 128 * (n / 128) = n := by omega
      rw [List.cons_append, readVarint, hbyte, if_neg hlarge, ih (div_lt_pow h), Option.map_some]
      dsimp only
      rw [hn]

/-- What follows a varint is less than what is read. -/
theorem length_readVarint {bs rest : Bytes} (h : readVarint k bs = some (n, rest)) :
    rest.length < bs.length := by
  induction k generalizing bs n with
  | zero =>
    cases bs with
    | nil => cases h
    | cons b bs =>
      rw [readVarint] at h
      split at h
      · cases h
        exact Nat.lt_succ_self _
      · cases h
  | succ k ih =>
    cases bs with
    | nil => cases h
    | cons b bs =>
      rw [readVarint] at h
      split at h
      · cases h
        exact Nat.lt_succ_self _
      · obtain ⟨⟨m, rest'⟩, hread, heq⟩ := Option.map_eq_some_iff.mp h
        cases heq
        exact (ih hread).trans (Nat.lt_succ_self _)

end Lib
