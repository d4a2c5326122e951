import MixServer.Lib.Varint

/-!
The wire format of protocol buffers, as far as generated classes use it.

A `WireFormat` is what the classes call: each writer with its reader, and the laws that
tie them together. `base128` is the documented format.
-/

namespace Lib

/-- The readers and writers of fields. `readTag` gives no tag at the end of the bytes and
where none can be read. -/
structure WireFormat where
  /-- A field that the class of a message does not know. -/
  Unknown : Type
  readTag : Bytes → Option (Nat × Bytes)
  writeTag : Nat → Bytes
  readInt32 : Bytes → Option (BitVec 32 × Bytes)
  writeInt32 : BitVec 32 → Bytes
  int32Size : BitVec 32 → Nat
  /-- What the string then holds, and what follows it, if all of it could be read. -/
  readString : Bytes → Bytes × Option Bytes
  writeString : Bytes → Bytes
  stringSize : Bytes → Nat
  /-- Reads what follows a tag. -/
  skipField : Nat → Bytes → Option (Unknown × Bytes)
  tag : Unknown → Nat
  /-- Writes what follows the tag. -/
  writeUnknown : Unknown → Bytes
  unknownSize : Unknown → Nat
  readTag_nil : readTag [] = none
  readTag_lt : ∀ {bs t rest}, readTag bs = some (t, rest) → rest.length < bs.length
  readTag_write : ∀ {t} (rest), 0 < t → t < 2 ^ 32 → readTag (writeTag t ++ rest) = some (t, rest)
  writeTag_small : ∀ {t}, 0 < t → t < 128 → writeTag t = [UInt8.ofNat t]
  readInt32_lt : ∀ {bs v rest}, readInt32 bs = some (v, rest) → rest.length < bs.length
  readInt32_write : ∀ v rest, readInt32 (writeInt32 v ++ rest) = some (v, rest)
  length_writeInt32 : ∀ v, (writeInt32 v).length = int32Size v
  readString_le : ∀ {bs s rest}, readString bs = (s, some rest) →
    rest.length ≤ bs.length ∧ s.length < 2 ^ 31
  readString_write : ∀ {s} (rest), s.length < 2 ^ 31 →
    readString (writeString s ++ rest) = (s, some rest)
  length_writeString : ∀ s, (writeString s).length = stringSize s
  skipField_le : ∀ {t bs u rest}, skipField t bs = some (u, rest) →
    rest.length ≤ bs.length ∧ tag u = t
  skipField_write : ∀ u rest, skipField (tag u) (writeUnknown u ++ rest) = some (u, rest)
  tag_pos : ∀ u, 0 < tag u ∧ tag u < 2 ^ 32
  length_writeUnknown : ∀ u, (writeTag (tag u) ++ writeUnknown u).length = unknownSize u

/-! ### The documented format -/

namespace Base128

def readTag (bs : Bytes) : Option (Nat × Bytes) :=
  match readVarint 4 bs with
  | none => none
  | some (t, rest) => if 0 < t ∧ t < 2 ^ 32 then some (t, rest) else none

/-- A negative number is extended to 64 bits. -/
def writeInt32 (v : BitVec 32) : Bytes := writeVarint 9 (v.signExtend 64).toNat

def readInt32 (bs : Bytes) : Option (BitVec 32 × Bytes) :=
  (readVarint 9 bs).map fun (n, rest) => (BitVec.ofNat 32 n, rest)

def writeString (s : Bytes) : Bytes := writeVarint 4 s.length ++ s

def readString (bs : Bytes) : Bytes × Option Bytes :=
  match readVarint 4 bs with
  | none => ([], none)
  | some (n, rest) =>
      if n < 2 ^ 31 ∧ n ≤ rest.length then (rest.take n, some (rest.drop n)) else ([], none)

theorem toNat_signExtend_lt (v : BitVec 32) : (v.signExtend 64).toNat < 128 ^ (9 + 1) :=
  lt_of_lt_of_le (v.signExtend 64).isLt (by norm_num)

theorem ofNat_signExtend (v : BitVec 32) : BitVec.ofNat 32 (v.signExtend 64).toNat = v := by
  have hlt := v.isLt
  apply BitVec.eq_of_toNat_eq
  rw [BitVec.toNat_ofNat, BitVec.toNat_signExtend, BitVec.toNat_setWidth]
  split
  · omega
  · omega

/-- What follows the tag of a field, by wire type. Groups are left out. -/
inductive Value where
  | varint (v : BitVec 64)
  | fixed64 (v : BitVec 64)
  | lengthDelimited (s : { s : Bytes // s.length < 2 ^ 31 })
  | fixed32 (v : BitVec 32)
deriving DecidableEq

def Value.wireType : Value → Nat
  | .varint _ => 0
  | .fixed64 _ => 1
  | .lengthDelimited _ => 2
  | .fixed32 _ => 5

def Value.write : Value → Bytes
  | .varint v => writeVarint 9 v.toNat
  | .fixed64 v => leBytes 8 v.toNat
  | .lengthDelimited s => writeString s
  | .fixed32 v => leBytes 4 v.toNat

def readValue (wireType : Nat) (bs : Bytes) : Option (Value × Bytes) :=
  match wireType with
  | 0 => (readVarint 9 bs).map fun (n, rest) => (.varint (BitVec.ofNat 64 n), rest)
  | 1 => if 8 ≤ bs.length then
      some (.fixed64 (BitVec.ofNat 64 (ofLe (bs.take 8))), bs.drop 8) else none
  | 2 => match readString bs with
    | (s, some rest) => if h : s.length < 2 ^ 31 then some (.lengthDelimited ⟨s, h⟩, rest) else none
    | (_, none) => none
  | 5 => if 4 ≤ bs.length then
      some (.fixed32 (BitVec.ofNat 32 (ofLe (bs.take 4))), bs.drop 4) else none
  | _ => none

theorem readString_write {s : Bytes} (rest : Bytes) (h : s.length < 2 ^ 31) :
    readString (writeString s ++ rest) = (s, some rest) := by
  have hread := readVarint_writeVarint (k := 4) (n := s.length) (by omega) (s ++ rest)
  rw [readString, writeString, List.append_assoc, hread]
  simp only [List.length_append, List.take_left, List.drop_left]
  rw [if_pos ⟨h, Nat.le_add_right _ _⟩]

theorem readString_le {bs s rest : Bytes} (h : readString bs = (s, some rest)) :
    rest.length ≤ bs.length ∧ s.length < 2 ^ 31 := by
  rw [readString] at h
  split at h
  · cases h
  · rename_i n rest' hread
    split at h
    · rename_i hfits
      cases h
      have hlt := length_readVarint hread
      rw [List.length_drop, List.length_take]
      omega
    · cases h

/-- A value is read back from what it is written as. -/
theorem readValue_write (v : Value) (rest : Bytes) :
    readValue v.wireType (v.write ++ rest) = some (v, rest) := by
  cases v with
  | varint v =>
    have hread := readVarint_writeVarint (k := 9) (lt_of_lt_of_le v.isLt (by norm_num)) rest
    simp only [Value.wireType, Value.write, readValue, hread, Option.map_some, BitVec.ofNat_toNat,
      BitVec.setWidth_eq]
  | fixed64 v =>
    have hread : ofLe (leBytes 8 v.toNat) = v.toNat := ofLe_leBytes v.isLt
    simp only [Value.wireType, Value.write, readValue, List.length_append, length_leBytes,
      List.take_left' (length_leBytes 8 v.toNat), List.drop_left' (length_leBytes 8 v.toNat), hread,
      BitVec.ofNat_toNat, BitVec.setWidth_eq]
    rw [if_pos (by omega)]
  | lengthDelimited s =>
    simp only [Value.wireType, Value.write, readValue, readString_write rest s.2, dif_pos s.2]
  | fixed32 v =>
    have hread : ofLe (leBytes 4 v.toNat) = v.toNat := ofLe_leBytes v.isLt
    simp only [Value.wireType, Value.write, readValue, List.length_append, length_leBytes,
      List.take_left' (length_leBytes 4 v.toNat), List.drop_left' (length_leBytes 4 v.toNat), hread,
      BitVec.ofNat_toNat, BitVec.setWidth_eq]
    rw [if_pos (by omega)]

theorem readValue_le {wireType : Nat} {bs rest : Bytes} {v : Value}
    (h : readValue wireType bs = some (v, rest)) :
    rest.length ≤ bs.length ∧ v.wireType = wireType := by
  unfold readValue at h
  split at h
  · obtain ⟨⟨n, rest'⟩, hread, heq⟩ := Option.map_eq_some_iff.mp h
    cases heq
    exact ⟨(length_readVarint hread).le, rfl⟩
  · split at h
    · cases h
      rw [List.length_drop]
      exact ⟨Nat.sub_le _ _, rfl⟩
    · cases h
  · split at h
    · rename_i s rest' hread
      split at h
      · cases h
        exact ⟨(readString_le hread).1, rfl⟩
      · cases h
    · cases h
  · split at h
    · cases h
      rw [List.length_drop]
      exact ⟨Nat.sub_le _ _, rfl⟩
    · cases h
  · cases h

/-- A field that is not known: its number and its value. -/
structure Unknown where
  number : Nat
  value : Value
  number_pos : 0 < number
  number_lt : number < 2 ^ 29
deriving DecidableEq

namespace Unknown

def tag (u : Unknown) : Nat := u.number * 8 + u.value.wireType

theorem wireType_lt (u : Unknown) : u.value.wireType < 8 := by
  cases u.value <;> simp [Value.wireType]

theorem tag_pos (u : Unknown) : 0 < u.tag ∧ u.tag < 2 ^ 32 := by
  have hpos := u.number_pos
  have hlt := u.number_lt
  have hwire := u.wireType_lt
  rw [tag]
  omega

end Unknown

def skipField (t : Nat) (bs : Bytes) : Option (Unknown × Bytes) :=
  if h : 0 < t / 8 ∧ t / 8 < 2 ^ 29 then
    (readValue (t % 8) bs).map fun (v, rest) => (⟨t / 8, v, h.1, h.2⟩, rest)
  else none

theorem skipField_write (u : Unknown) (rest : Bytes) :
    skipField u.tag (u.value.write ++ rest) = some (u, rest) := by
  have hwire := u.wireType_lt
  have hnumber : u.tag / 8 = u.number := by
    rw [Unknown.tag]
    omega
  have htype : u.tag % 8 = u.value.wireType := by
    rw [Unknown.tag]
    omega
  rw [skipField, dif_pos (by rw [hnumber]; exact ⟨u.number_pos, u.number_lt⟩)]
  simp only [htype, readValue_write, Option.map_some, hnumber]

theorem skipField_le {t : Nat} {bs rest : Bytes} {u : Unknown}
    (h : skipField t bs = some (u, rest)) : rest.length ≤ bs.length ∧ u.tag = t := by
  rw [skipField] at h
  split at h
  · obtain ⟨⟨v, rest'⟩, hread, heq⟩ := Option.map_eq_some_iff.mp h
    cases heq
    obtain ⟨hle, htype⟩ := readValue_le hread
    refine ⟨hle, ?_⟩
    rw [Unknown.tag]
    dsimp only
    omega
  · cases h

end Base128

/-- The documented wire format. -/
def base128 : WireFormat where
  Unknown := Base128.Unknown
  readTag := Base128.readTag
  writeTag t := writeVarint 4 t
  readInt32 := Base128.readInt32
  writeInt32 := Base128.writeInt32
  int32Size v := (Base128.writeInt32 v).length
  readString := Base128.readString
  writeString := Base128.writeString
  stringSize s := (Base128.writeString s).length
  skipField := Base128.skipField
  tag := Base128.Unknown.tag
  writeUnknown u := u.value.write
  unknownSize u := (writeVarint 4 u.tag ++ u.value.write).length
  readTag_nil := rfl
  readTag_lt h := by
    rw [Base128.readTag] at h
    split at h
    · cases h
    · rename_i hread
      split at h
      · cases h
        exact length_readVarint hread
      · cases h
  readTag_write rest hpos hlt := by
    rw [Base128.readTag, readVarint_writeVarint (by omega)]
    exact if_pos ⟨hpos, hlt⟩
  writeTag_small _ hlt := writeVarint_small 4 hlt
  readInt32_lt h := by
    obtain ⟨⟨n, rest'⟩, hread, heq⟩ := Option.map_eq_some_iff.mp h
    cases heq
    exact length_readVarint hread
  readInt32_write v rest := by
    rw [Base128.readInt32, Base128.writeInt32,
      readVarint_writeVarint (Base128.toNat_signExtend_lt v), Option.map_some]
    dsimp only
    rw [Base128.ofNat_signExtend]
  length_writeInt32 _ := rfl
  readString_le := Base128.readString_le
  readString_write := Base128.readString_write
  length_writeString _ := rfl
  skipField_le := Base128.skipField_le
  skipField_write := Base128.skipField_write
  tag_pos := Base128.Unknown.tag_pos
  length_writeUnknown _ := rfl

end Lib
