import MixServer.Lib.Consume
import MixServer.Lib.WireFormat

/-!
The generated message classes (`proto/gen_proto/cpp/test.pb.cc`), over a wire format.

A class is its fields, as the `switch` of `MergePartialFromCodedStream` has them, with its
other generated functions. `Lawful` ties these together: what `SerializeWithCachedSizes`
writes, `MergePartialFromCodedStream` merges as `MergeFrom` does. `parse_append` says what
this means for strings that are parsed, and `reparse` that every message that comes out of
a parse, with fields in any order and number and with unknown ones, is written as a string
that parses to it.
-/

namespace MixServer.Pb

open Lib

/-! ### What all classes share -/

/-- A `case` of the switch: its field number, the low byte that the tag must have, and
what the message then holds and what follows the field. -/
structure FieldCase (M : Type) where
  number : Nat
  tag : Nat
  read : M → Bytes → M × Option Bytes
  read_le : ∀ {m bs m' rest}, read m bs = (m', some rest) → rest.length ≤ bs.length

/-- How `MergePartialFromCodedStream` ends: it reads no tag any more, at the end of the
string or before it, or it fails. -/
inductive ParseEnd where
  | success (consumedEntireMessage : Bool)
  | failure
deriving DecidableEq, Repr

variable (W : WireFormat)

/-- The generated functions of a message class. -/
structure MessageClass (M : Type) where
  new : M
  cases : List (FieldCase M)
  unknownFields : M → List W.Unknown
  addUnknown : M → List W.Unknown → M
  isInitialized : M → Bool
  /-- `SerializeWithCachedSizes`. -/
  serialize : M → Bytes
  byteSizeLong : M → Nat
  /-- `m.MergeFrom(from)` as `mergeFrom m from`. -/
  mergeFrom : M → M → M

/-- `ReadPrimitive<int32>` into a field, after its has bit is set. -/
def int32Case {M : Type} (number tag : Nat) (get : M → BitVec 32) (set : M → BitVec 32 → M) :
    FieldCase M where
  number := number
  tag := tag
  read m bs :=
    match W.readInt32 bs with
    | some (v, rest) => (set m v, some rest)
    | none => (set m (get m), none)
  read_le h := by
    split at h
    · rename_i hread
      cases h
      exact (W.readInt32_lt hread).le
    · cases h

/-- `ReadString` into a field, whose has bit `mutable_` sets. -/
def stringCase {M : Type} (number tag : Nat) (set : M → Bytes → M) : FieldCase M where
  number := number
  tag := tag
  read m bs := (set m (W.readString bs).1, (W.readString bs).2)
  read_le h := by
    have hread := (Prod.mk.inj h).2
    exact (W.readString_le (Prod.ext rfl hread)).1

theorem int32Case_read {M : Type} {number tag : Nat} {get : M → BitVec 32}
    {set : M → BitVec 32 → M} {m m' : M} {bs rest : Bytes}
    (h : (int32Case W number tag get set).read m bs = (m', some rest)) : ∃ v, m' = set m v := by
  simp only [int32Case] at h
  split at h
  · rename_i v _ _
    cases h
    exact ⟨v, rfl⟩
  · cases h

theorem stringCase_read {M : Type} {number tag : Nat} {set : M → Bytes → M} {m m' : M}
    {bs rest : Bytes} (h : (stringCase W number tag set).read m bs = (m', some rest)) :
    ∃ s, s.length < 2 ^ 31 ∧ m' = set m s := by
  obtain ⟨hset, hrest⟩ := Prod.mk.inj h
  exact ⟨_, (W.readString_le (Prod.ext rfl hrest)).2, hset.symm⟩

/-- `WriteInt32`. -/
def writeInt32 (number : Nat) (v : BitVec 32) : Bytes :=
  W.writeTag (number * 8) ++ W.writeInt32 v

/-- `WriteString`. -/
def writeString (number : Nat) (s : Bytes) : Bytes :=
  W.writeTag (number * 8 + 2) ++ W.writeString s

/-- A field that is written if its has bit is set. -/
def ifHas {α : Type} (field : Option α) (write : α → Bytes) : Bytes := field.elim [] write

/-- `SerializeUnknownFields`. -/
def serializeUnknownFields (us : List W.Unknown) : Bytes :=
  us.flatMap fun u => W.writeTag (W.tag u) ++ W.writeUnknown u

/-- `ComputeUnknownFieldsSize`. -/
def computeUnknownFieldsSize (us : List W.Unknown) : Nat := (us.map W.unknownSize).sum

variable {W} in
theorem length_ifHas {α : Type} {write : α → Bytes} {size : α → Nat}
    (h : ∀ v, (write v).length = 1 + size v) (field : Option α) :
    (ifHas field write).length = field.elim 0 (1 + size ·) := by
  cases field with
  | none => rfl
  | some v => exact h v

theorem length_int32 (number : Nat) (h : 0 < number ∧ number < 16) (field : Option (BitVec 32)) :
    (ifHas field (writeInt32 W number)).length = field.elim 0 (1 + W.int32Size ·) := by
  apply length_ifHas
  intro v
  rw [writeInt32, List.length_append, W.writeTag_small (by omega) (by omega), W.length_writeInt32]
  rfl

theorem length_string (number : Nat) (h : number < 15) (field : Option Bytes) :
    (ifHas field (writeString W number)).length = field.elim 0 (1 + W.stringSize ·) := by
  apply length_ifHas
  intro s
  rw [writeString, List.length_append, W.writeTag_small (by omega) (by omega),
    W.length_writeString]
  rfl

namespace MessageClass

variable {W} {M : Type} (c : MessageClass W M)

/-- The `switch`: the case whose statements are executed, and none for `handle_unusual`. -/
def switch (tag : Nat) : Option (FieldCase M) :=
  if tag ≤ 127 then
    (c.cases.find? fun k => k.number == tag / 8).filter fun k => tag % 256 == k.tag
  else none

/-- One round of the loop in `MergePartialFromCodedStream`. -/
def round (m : M) (input : Bytes) : (M × ParseEnd) ⊕ (M × Bytes) :=
  match W.readTag input with
  | none => .inl (m, .success input.isEmpty)
  | some (tag, rest) =>
      match c.switch tag with
      | some k =>
          match k.read m rest with
          | (m', some rest') => .inr (m', rest')
          | (m', none) => .inl (m', .failure)
      | none =>
          match W.skipField tag rest with
          | some (u, rest') => .inr (c.addUnknown m [u], rest')
          | none => .inl (m, .failure)

theorem progress : Progress c.round := by
  intro m input m' rest h
  rw [round] at h
  split at h
  · cases h
  · rename_i tag rest' htag
    have hlt := W.readTag_lt htag
    split at h
    · rename_i k _
      split at h
      · rename_i hread
        cases h
        exact lt_of_le_of_lt (k.read_le hread) hlt
      · cases h
    · split at h
      · rename_i hskip
        cases h
        exact lt_of_le_of_lt (W.skipField_le hskip).1 hlt
      · cases h

/-- `MergePartialFromCodedStream`. -/
def mergePartial (m : M) (input : Bytes) : M × ParseEnd := consume c.round c.progress m input

/-- `ParseFromString` of a new message: what it then holds, and whether it returns true. -/
def parseFromString (s : Bytes) : M × Bool :=
  let r := c.mergePartial c.new s
  (r.1, r.2 == .success true && c.isInitialized r.1)

/-! ### One field -/

variable {c} {m m' : M} {tag : Nat} {rest : Bytes}

@[simp] theorem mergePartial_nil : c.mergePartial m [] = (m, .success true) := by
  refine consume_inl ?_
  rw [round, W.readTag_nil]
  rfl

/-- A field that the class knows. -/
theorem mergePartial_known {k : FieldCase M} (hk : c.switch tag = some k) (hpos : 0 < tag)
    {body : Bytes} (hread : k.read m (body ++ rest) = (m', some rest)) :
    c.mergePartial m (W.writeTag tag ++ body ++ rest) = c.mergePartial m' rest := by
  have hsmall : tag ≤ 127 := by
    by_contra hlarge
    rw [switch, if_neg hlarge] at hk
    cases hk
  refine consume_inr ?_
  rw [round, List.append_assoc, W.readTag_write _ hpos (by omega)]
  simp only [hk, hread]

/-- A field that is there, or is not. -/
theorem mergePartial_ifHas {α : Type} {k : FieldCase M} (hk : c.switch tag = some k)
    (hpos : 0 < tag) {write : α → Bytes} {set : M → α → M}
    (field : Option α) (hread : ∀ v ∈ field, k.read m (write v ++ rest) = (set m v, some rest)) :
    c.mergePartial m (ifHas field (fun v => W.writeTag tag ++ write v) ++ rest) =
      c.mergePartial (field.elim m (set m)) rest := by
  cases field with
  | none => rfl
  | some v => exact mergePartial_known hk hpos (hread v rfl)

theorem mergePartial_int32 (number : Nat) {get : M → BitVec 32} {set : M → BitVec 32 → M}
    (hk : c.switch (number * 8) = some (int32Case W number (number * 8) get set))
    (hpos : 0 < number) (field : Option (BitVec 32)) (rest : Bytes) :
    c.mergePartial m (ifHas field (writeInt32 W number) ++ rest) =
      c.mergePartial (field.elim m (set m)) rest := by
  refine mergePartial_ifHas hk (by omega) field fun v _ => ?_
  simp only [int32Case, W.readInt32_write]

theorem mergePartial_string (number : Nat) {set : M → Bytes → M}
    (hk : c.switch (number * 8 + 2) = some (stringCase W number (number * 8 + 2) set))
    (field : Option Bytes) (hlen : ∀ s ∈ field, s.length < 2 ^ 31) (rest : Bytes) :
    c.mergePartial m (ifHas field (writeString W number) ++ rest) =
      c.mergePartial (field.elim m (set m)) rest := by
  refine mergePartial_ifHas hk (by omega) field fun s hs => ?_
  simp only [stringCase, W.readString_write rest (hlen s hs)]

end MessageClass

/-! ### Unknown fields -/

/-- The unknown fields of a message are unknown to its class. -/
def MessageClass.Unusual {W : WireFormat} {M : Type} (c : MessageClass W M)
    (us : List W.Unknown) : Prop :=
  ∀ u ∈ us, c.switch (W.tag u) = none

/-- Unknown fields are only appended, and nothing else is done with them. `Fits` is what the
strings in a message satisfy. -/
structure KeepsUnknown {W : WireFormat} {M : Type} (c : MessageClass W M) (Fits : M → Prop) :
    Prop where
  new : c.unknownFields c.new = [] ∧ Fits c.new
  add_nil : ∀ m, c.addUnknown m [] = m
  add_add : ∀ m us vs, c.addUnknown (c.addUnknown m us) vs = c.addUnknown m (us ++ vs)
  unknownFields_add : ∀ m us, c.unknownFields (c.addUnknown m us) = c.unknownFields m ++ us
  fits_add : ∀ m us, Fits (c.addUnknown m us) ↔ Fits m
  read : ∀ k ∈ c.cases, ∀ {m bs m' rest}, k.read m bs = (m', some rest) → Fits m →
    Fits m' ∧ c.unknownFields m' = c.unknownFields m

section

variable {W : WireFormat} {M : Type} {c : MessageClass W M} {Fits : M → Prop}

theorem KeepsUnknown.mergePartial_unknown (hc : KeepsUnknown c Fits) {us : List W.Unknown}
    (hus : c.Unusual us) (m : M) (rest : Bytes) :
    c.mergePartial m (serializeUnknownFields W us ++ rest) =
      c.mergePartial (c.addUnknown m us) rest := by
  induction us generalizing m with
  | nil => rw [hc.add_nil]; rfl
  | cons u us ih =>
    obtain ⟨hu, hus⟩ := List.forall_mem_cons.mp hus
    obtain ⟨hpos, hlt⟩ := W.tag_pos u
    have hround : c.mergePartial m (serializeUnknownFields W (u :: us) ++ rest) =
        c.mergePartial (c.addUnknown m [u]) (serializeUnknownFields W us ++ rest) := by
      refine consume_inr ?_
      rw [serializeUnknownFields, List.flatMap_cons, List.append_assoc, List.append_assoc,
        MessageClass.round, W.readTag_write _ hpos hlt]
      simp only [hu, W.skipField_write]
      rfl
    rw [hround, ih hus, hc.add_add, List.singleton_append]

theorem length_serializeUnknownFields (us : List W.Unknown) :
    (serializeUnknownFields W us).length = computeUnknownFieldsSize W us := by
  induction us with
  | nil => rfl
  | cons u us ih =>
    have hcons : serializeUnknownFields W (u :: us) =
        (W.writeTag (W.tag u) ++ W.writeUnknown u) ++ serializeUnknownFields W us := rfl
    rw [hcons, List.length_append, W.length_writeUnknown, ih, computeUnknownFieldsSize,
      computeUnknownFieldsSize, List.map_cons, List.sum_cons]

/-- What a parse that does not fail leaves: strings that fit, and unknown fields that are
unknown. -/
theorem KeepsUnknown.mergePartial_keeps (hc : KeepsUnknown c Fits) {m : M} {input : Bytes}
    (hm : Fits m ∧ c.Unusual (c.unknownFields m))
    (hend : (c.mergePartial m input).2 ≠ .failure) :
    Fits (c.mergePartial m input).1 ∧ c.Unusual (c.unknownFields (c.mergePartial m input).1) := by
  revert hend
  refine consume_ensures (I := fun m => Fits m ∧ c.Unusual (c.unknownFields m))
    (Q := fun (r : M × ParseEnd) =>
      r.2 ≠ .failure → Fits r.1 ∧ c.Unusual (c.unknownFields r.1)) ?_ ?_ hm
  · intro m bs m' rest hm h
    rw [MessageClass.round] at h
    split at h
    · cases h
    · rename_i tag rest' _
      split at h
      · rename_i k hk
        split at h
        · rename_i hread
          cases h
          have hmem : k ∈ c.cases := by
            rw [MessageClass.switch] at hk
            split at hk
            · obtain ⟨hfind, -⟩ := Option.filter_eq_some_iff.mp hk
              exact List.mem_of_find?_eq_some hfind
            · cases hk
          obtain ⟨hfits, hsame⟩ := hc.read k hmem hread hm.1
          exact ⟨hfits, hsame ▸ hm.2⟩
        · cases h
      · rename_i hnone
        split at h
        · rename_i u rest'' hskip
          cases h
          refine ⟨(hc.fits_add _ _).mpr hm.1, ?_⟩
          rw [hc.unknownFields_add]
          intro u' hu'
          rcases List.mem_append.mp hu' with hu' | hu'
          · exact hm.2 u' hu'
          · rw [List.mem_singleton.mp hu', (W.skipField_le hskip).2]
            exact hnone
        · cases h
  · intro m bs r hm h hr
    rw [MessageClass.round] at h
    split at h
    · cases h
      exact hm
    · split at h
      · split at h
        · cases h
        · cases h
          exact absurd rfl hr
      · split at h
        · cases h
        · cases h
          exact absurd rfl hr

end

/-! ### Lawful classes -/

/-- The generated functions of a class belong together. -/
structure Lawful {W : WireFormat} {M : Type} (c : MessageClass W M) (Fits : M → Prop) : Prop
    extends KeepsUnknown c Fits where
  mergeFrom_new : ∀ m, c.mergeFrom c.new m = m
  serialize : ∀ {m}, Fits m → c.Unusual (c.unknownFields m) → ∀ m₀ rest,
    c.mergePartial m₀ (c.serialize m ++ rest) = c.mergePartial (c.mergeFrom m₀ m) rest
  byteSizeLong : ∀ m, (c.serialize m).length = c.byteSizeLong m

/-! ### `AddRet` -/

structure AddRet (W : WireFormat) where
  serviceId : Option (BitVec 32) := none
  commandId : Option (BitVec 32) := none
  ret : Option (BitVec 32) := none
  unknownFields : List W.Unknown := []

namespace AddRet

variable (W : WireFormat) (m : AddRet W)

def getServiceId : BitVec 32 := m.serviceId.getD 1000
def getCommandId : BitVec 32 := m.commandId.getD 1002
def getRet : BitVec 32 := m.ret.getD 0

def setServiceId (v : BitVec 32) : AddRet W := { m with serviceId := some v }
def setCommandId (v : BitVec 32) : AddRet W := { m with commandId := some v }
def setRet (v : BitVec 32) : AddRet W := { m with ret := some v }

def serviceIdCase : FieldCase (AddRet W) := int32Case W 1 8 (getServiceId W) (setServiceId W)
def commandIdCase : FieldCase (AddRet W) := int32Case W 2 16 (getCommandId W) (setCommandId W)
def retCase : FieldCase (AddRet W) := int32Case W 3 24 (getRet W) (setRet W)

def cls : MessageClass W (AddRet W) where
  new := {}
  cases := [serviceIdCase W, commandIdCase W, retCase W]
  unknownFields m := m.unknownFields
  addUnknown m us := { m with unknownFields := m.unknownFields ++ us }
  isInitialized m := m.ret.isSome
  serialize m :=
    ifHas m.serviceId (writeInt32 W 1) ++ ifHas m.commandId (writeInt32 W 2) ++
      ifHas m.ret (writeInt32 W 3) ++ serializeUnknownFields W m.unknownFields
  byteSizeLong m :=
    computeUnknownFieldsSize W m.unknownFields + m.ret.elim 0 (1 + W.int32Size ·) +
      m.serviceId.elim 0 (1 + W.int32Size ·) + m.commandId.elim 0 (1 + W.int32Size ·)
  mergeFrom m fr :=
    { unknownFields := m.unknownFields ++ fr.unknownFields
      ret := fr.ret.or m.ret
      serviceId := fr.serviceId.or m.serviceId
      commandId := fr.commandId.or m.commandId }

theorem keepsUnknown : KeepsUnknown (cls W) fun _ => True where
  new := ⟨rfl, trivial⟩
  add_nil m := by simp [cls]
  add_add m us vs := by simp [cls]
  unknownFields_add m us := rfl
  fits_add m us := Iff.rfl
  read k hk m bs m' rest h _ := by
    simp only [cls, List.mem_cons, List.not_mem_nil, or_false] at hk
    refine ⟨trivial, ?_⟩
    rcases hk with rfl | rfl | rfl
    all_goals
      obtain ⟨v, rfl⟩ := int32Case_read W h
      rfl

theorem lawful : Lawful (cls W) fun _ => True where
  toKeepsUnknown := keepsUnknown W
  mergeFrom_new m := by
    obtain ⟨serviceId, commandId, ret, us⟩ := m
    cases serviceId <;> cases commandId <;> cases ret <;> rfl
  serialize {m} _ hus m₀ rest := by
    have hserviceId : (cls W).switch 8 = some (serviceIdCase W) := rfl
    have hcommandId : (cls W).switch 16 = some (commandIdCase W) := rfl
    have hret : (cls W).switch 24 = some (retCase W) := rfl
    have hunknown : (cls W).Unusual m.unknownFields := hus
    have hbytes : (cls W).serialize m ++ rest =
        ifHas m.serviceId (writeInt32 W 1) ++ (ifHas m.commandId (writeInt32 W 2) ++
          (ifHas m.ret (writeInt32 W 3) ++
            (serializeUnknownFields W m.unknownFields ++ rest))) := by
      simp only [cls, List.append_assoc]
    rw [hbytes, MessageClass.mergePartial_int32 1 hserviceId (by decide),
      MessageClass.mergePartial_int32 2 hcommandId (by decide),
      MessageClass.mergePartial_int32 3 hret (by decide),
      (keepsUnknown W).mergePartial_unknown hunknown]
    obtain ⟨serviceId, commandId, ret, us⟩ := m
    cases serviceId <;> cases commandId <;> cases ret <;> rfl
  byteSizeLong m := by
    simp only [cls, List.length_append, length_serializeUnknownFields]
    rw [length_int32 W 1 (by decide), length_int32 W 2 (by decide), length_int32 W 3 (by decide)]
    omega

end AddRet

/-! ### `Echo` and `C_Echo` -/

/-- The classes `Echo` and `C_Echo` differ in the default of `command_id`. -/
structure Echo (W : WireFormat) where
  serviceId : Option (BitVec 32) := none
  commandId : Option (BitVec 32) := none
  msg : Option Bytes := none
  unknownFields : List W.Unknown := []

namespace Echo

variable (W : WireFormat) (dflt : BitVec 32) (m : Echo W)

def getServiceId : BitVec 32 := m.serviceId.getD 1000
def getCommandId : BitVec 32 := m.commandId.getD dflt

def setServiceId (v : BitVec 32) : Echo W := { m with serviceId := some v }
def setCommandId (v : BitVec 32) : Echo W := { m with commandId := some v }
def setMsg (s : Bytes) : Echo W := { m with msg := some s }

def serviceIdCase : FieldCase (Echo W) := int32Case W 1 8 (getServiceId W) (setServiceId W)
def commandIdCase : FieldCase (Echo W) := int32Case W 2 16 (getCommandId W dflt) (setCommandId W)
def msgCase : FieldCase (Echo W) := stringCase W 3 26 (setMsg W)

def clsOf : MessageClass W (Echo W) where
  new := {}
  cases := [serviceIdCase W, commandIdCase W dflt, msgCase W]
  unknownFields m := m.unknownFields
  addUnknown m us := { m with unknownFields := m.unknownFields ++ us }
  isInitialized m := m.msg.isSome
  serialize m :=
    ifHas m.serviceId (writeInt32 W 1) ++ ifHas m.commandId (writeInt32 W 2) ++
      ifHas m.msg (writeString W 3) ++ serializeUnknownFields W m.unknownFields
  byteSizeLong m :=
    computeUnknownFieldsSize W m.unknownFields + m.msg.elim 0 (1 + W.stringSize ·) +
      m.serviceId.elim 0 (1 + W.int32Size ·) + m.commandId.elim 0 (1 + W.int32Size ·)
  mergeFrom m fr :=
    { unknownFields := m.unknownFields ++ fr.unknownFields
      msg := fr.msg.or m.msg
      serviceId := fr.serviceId.or m.serviceId
      commandId := fr.commandId.or m.commandId }

def cls : MessageClass W (Echo W) := clsOf W 1

/-- The string has a length that fits an `int`. -/
def Fits (m : Echo W) : Prop := ∀ s ∈ m.msg, s.length < 2 ^ 31

theorem keepsUnknown : KeepsUnknown (clsOf W dflt) (Fits W) where
  new := ⟨rfl, by simp [clsOf, Fits]⟩
  add_nil m := by simp [clsOf]
  add_add m us vs := by simp [clsOf]
  unknownFields_add m us := rfl
  fits_add m us := Iff.rfl
  read k hk m bs m' rest h hm := by
    simp only [clsOf, List.mem_cons, List.not_mem_nil, or_false] at hk
    rcases hk with rfl | rfl | rfl
    · obtain ⟨v, rfl⟩ := int32Case_read W h
      exact ⟨hm, rfl⟩
    · obtain ⟨v, rfl⟩ := int32Case_read W h
      exact ⟨hm, rfl⟩
    · obtain ⟨s, hlen, rfl⟩ := stringCase_read W h
      refine ⟨?_, rfl⟩
      intro s' hs'
      cases hs'
      exact hlen

theorem lawfulOf : Lawful (clsOf W dflt) (Fits W) where
  toKeepsUnknown := keepsUnknown W dflt
  mergeFrom_new m := by
    obtain ⟨serviceId, commandId, msg, us⟩ := m
    cases serviceId <;> cases commandId <;> cases msg <;> rfl
  serialize {m} hfits hus m₀ rest := by
    have hserviceId : (clsOf W dflt).switch 8 = some (serviceIdCase W) := rfl
    have hcommandId : (clsOf W dflt).switch 16 = some (commandIdCase W dflt) := rfl
    have hmsg : (clsOf W dflt).switch 26 = some (msgCase W) := rfl
    have hunknown : (clsOf W dflt).Unusual m.unknownFields := hus
    have hbytes : (clsOf W dflt).serialize m ++ rest =
        ifHas m.serviceId (writeInt32 W 1) ++ (ifHas m.commandId (writeInt32 W 2) ++
          (ifHas m.msg (writeString W 3) ++
            (serializeUnknownFields W m.unknownFields ++ rest))) := by
      simp only [clsOf, List.append_assoc]
    rw [hbytes, MessageClass.mergePartial_int32 1 hserviceId (by decide),
      MessageClass.mergePartial_int32 2 hcommandId (by decide),
      MessageClass.mergePartial_string 3 hmsg m.msg hfits,
      (keepsUnknown W dflt).mergePartial_unknown hunknown]
    obtain ⟨serviceId, commandId, msg, us⟩ := m
    cases serviceId <;> cases commandId <;> cases msg <;> rfl
  byteSizeLong m := by
    simp only [clsOf, List.length_append, length_serializeUnknownFields]
    rw [length_int32 W 1 (by decide), length_int32 W 2 (by decide), length_string W 3 (by decide)]
    omega

end Echo

namespace C_Echo

/-- The class `C_Echo`, on messages of the same fields. -/
def cls (W : WireFormat) : MessageClass W (Echo W) := Echo.clsOf W 2

end C_Echo

/-! ### `Add` -/

structure Add (W : WireFormat) where
  serviceId : Option (BitVec 32) := none
  commandId : Option (BitVec 32) := none
  add1 : Option (BitVec 32) := none
  add2 : Option (BitVec 32) := none
  unknownFields : List W.Unknown := []

namespace Add

variable (W : WireFormat) (m : Add W)

def getServiceId : BitVec 32 := m.serviceId.getD 1000
def getCommandId : BitVec 32 := m.commandId.getD 1001
def getAdd1 : BitVec 32 := m.add1.getD 0
def getAdd2 : BitVec 32 := m.add2.getD 0

def setServiceId (v : BitVec 32) : Add W := { m with serviceId := some v }
def setCommandId (v : BitVec 32) : Add W := { m with commandId := some v }
def setAdd1 (v : BitVec 32) : Add W := { m with add1 := some v }
def setAdd2 (v : BitVec 32) : Add W := { m with add2 := some v }

def serviceIdCase : FieldCase (Add W) := int32Case W 1 8 (getServiceId W) (setServiceId W)
def commandIdCase : FieldCase (Add W) := int32Case W 2 16 (getCommandId W) (setCommandId W)
def add1Case : FieldCase (Add W) := int32Case W 3 24 (getAdd1 W) (setAdd1 W)
def add2Case : FieldCase (Add W) := int32Case W 4 32 (getAdd2 W) (setAdd2 W)

/-- `RequiredFieldsByteSizeFallback`. -/
def requiredFieldsByteSizeFallback : Nat :=
  m.add1.elim 0 (1 + W.int32Size ·) + m.add2.elim 0 (1 + W.int32Size ·)

def cls : MessageClass W (Add W) where
  new := {}
  cases := [serviceIdCase W, commandIdCase W, add1Case W, add2Case W]
  unknownFields m := m.unknownFields
  addUnknown m us := { m with unknownFields := m.unknownFields ++ us }
  isInitialized m := m.add1.isSome && m.add2.isSome
  serialize m :=
    ifHas m.serviceId (writeInt32 W 1) ++ ifHas m.commandId (writeInt32 W 2) ++
      ifHas m.add1 (writeInt32 W 3) ++ ifHas m.add2 (writeInt32 W 4) ++
      serializeUnknownFields W m.unknownFields
  byteSizeLong m :=
    let required :=
      if m.add1.isSome && m.add2.isSome then
        1 + W.int32Size (getAdd1 W m) + (1 + W.int32Size (getAdd2 W m))
      else requiredFieldsByteSizeFallback W m
    computeUnknownFieldsSize W m.unknownFields + required +
      m.serviceId.elim 0 (1 + W.int32Size ·) + m.commandId.elim 0 (1 + W.int32Size ·)
  mergeFrom m fr :=
    { unknownFields := m.unknownFields ++ fr.unknownFields
      add1 := fr.add1.or m.add1
      add2 := fr.add2.or m.add2
      serviceId := fr.serviceId.or m.serviceId
      commandId := fr.commandId.or m.commandId }

theorem keepsUnknown : KeepsUnknown (cls W) fun _ => True where
  new := ⟨rfl, trivial⟩
  add_nil m := by simp [cls]
  add_add m us vs := by simp [cls]
  unknownFields_add m us := rfl
  fits_add m us := Iff.rfl
  read k hk m bs m' rest h _ := by
    simp only [cls, List.mem_cons, List.not_mem_nil, or_false] at hk
    refine ⟨trivial, ?_⟩
    rcases hk with rfl | rfl | rfl | rfl
    all_goals
      obtain ⟨v, rfl⟩ := int32Case_read W h
      rfl

/-- Where all required fields are there, the shorter way to their size is the longer one. -/
theorem required_eq (m : Add W) :
    (if m.add1.isSome && m.add2.isSome then
        1 + W.int32Size (getAdd1 W m) + (1 + W.int32Size (getAdd2 W m))
      else requiredFieldsByteSizeFallback W m) = requiredFieldsByteSizeFallback W m := by
  obtain ⟨serviceId, commandId, add1, add2, us⟩ := m
  cases add1 <;> cases add2 <;> rfl

theorem lawful : Lawful (cls W) fun _ => True where
  toKeepsUnknown := keepsUnknown W
  mergeFrom_new m := by
    obtain ⟨serviceId, commandId, add1, add2, us⟩ := m
    cases serviceId <;> cases commandId <;> cases add1 <;> cases add2 <;> rfl
  serialize {m} _ hus m₀ rest := by
    have hserviceId : (cls W).switch 8 = some (serviceIdCase W) := rfl
    have hcommandId : (cls W).switch 16 = some (commandIdCase W) := rfl
    have hadd1 : (cls W).switch 24 = some (add1Case W) := rfl
    have hadd2 : (cls W).switch 32 = some (add2Case W) := rfl
    have hunknown : (cls W).Unusual m.unknownFields := hus
    have hbytes : (cls W).serialize m ++ rest =
        ifHas m.serviceId (writeInt32 W 1) ++ (ifHas m.commandId (writeInt32 W 2) ++
          (ifHas m.add1 (writeInt32 W 3) ++ (ifHas m.add2 (writeInt32 W 4) ++
            (serializeUnknownFields W m.unknownFields ++ rest)))) := by
      simp only [cls, List.append_assoc]
    rw [hbytes, MessageClass.mergePartial_int32 1 hserviceId (by decide),
      MessageClass.mergePartial_int32 2 hcommandId (by decide),
      MessageClass.mergePartial_int32 3 hadd1 (by decide),
      MessageClass.mergePartial_int32 4 hadd2 (by decide),
      (keepsUnknown W).mergePartial_unknown hunknown]
    obtain ⟨serviceId, commandId, add1, add2, us⟩ := m
    cases serviceId <;> cases commandId <;> cases add1 <;> cases add2 <;> rfl
  byteSizeLong m := by
    simp only [cls, required_eq, List.length_append, length_serializeUnknownFields]
    rw [length_int32 W 1 (by decide), length_int32 W 2 (by decide), length_int32 W 3 (by decide),
      length_int32 W 4 (by decide), requiredFieldsByteSizeFallback]
    omega

end Add

/-! ### All classes -/

inductive MessageType where
  | AddRet
  | Echo
  | C_Echo
  | Add
deriving DecidableEq, Repr

namespace MessageType

/-- The messages of a type. -/
def Msg (W : WireFormat) : MessageType → Type
  | .AddRet => Pb.AddRet W
  | .Echo | .C_Echo => Pb.Echo W
  | .Add => Pb.Add W

def cls (W : WireFormat) : (t : MessageType) → MessageClass W (t.Msg W)
  | .AddRet => AddRet.cls W
  | .Echo => Echo.cls W
  | .C_Echo => C_Echo.cls W
  | .Add => Add.cls W

def Fits (W : WireFormat) : (t : MessageType) → t.Msg W → Prop
  | .AddRet | .Add => fun _ => True
  | .Echo | .C_Echo => Echo.Fits W

theorem lawful (W : WireFormat) : (t : MessageType) → Lawful (t.cls W) (t.Fits W)
  | .AddRet => AddRet.lawful W
  | .Echo => Echo.lawfulOf W 1
  | .C_Echo => Echo.lawfulOf W 2
  | .Add => Add.lawful W

variable {W : WireFormat}

/-- A message that could come out of a parse: strings whose length fits an `int`, and
unknown fields that are unknown to the class. -/
def WellFormed (t : MessageType) (m : t.Msg W) : Prop :=
  t.Fits W m ∧ (t.cls W).Unusual ((t.cls W).unknownFields m)

/-- **Serialised messages one after another** are parsed as one message, into which they are
merged in this order. For every class, whatever fields the messages have. -/
theorem parse_append (t : MessageType) {m m' : t.Msg W} (h : t.WellFormed m)
    (h' : t.WellFormed m') :
    (t.cls W).parseFromString ((t.cls W).serialize m ++ (t.cls W).serialize m') =
      ((t.cls W).mergeFrom m m', (t.cls W).isInitialized ((t.cls W).mergeFrom m m')) := by
  have hlawful := t.lawful W
  have hfirst := hlawful.serialize h.1 h.2 (t.cls W).new ((t.cls W).serialize m')
  have hsecond := hlawful.serialize h'.1 h'.2 m []
  rw [List.append_nil, MessageClass.mergePartial_nil] at hsecond
  rw [hlawful.mergeFrom_new, hsecond] at hfirst
  rw [MessageClass.parseFromString, hfirst]
  simp

/-- Two halves of an `Add`; what both have is taken from the second. -/
theorem parse_append_halves :
    (Pb.Add.cls base128).parseFromString
        ((Pb.Add.cls base128).serialize { commandId := some 5, add1 := some 3 } ++
          (Pb.Add.cls base128).serialize { add1 := some (-1), add2 := some 4 }) =
      ({ commandId := some 5, add1 := some (-1), add2 := some 4 }, true) := by
  have hfirst : WellFormed .Add ({ commandId := some 5, add1 := some 3 } : Pb.Add base128) :=
    ⟨trivial, fun _ hu => absurd hu List.not_mem_nil⟩
  have hsecond : WellFormed .Add ({ add1 := some (-1), add2 := some 4 } : Pb.Add base128) :=
    ⟨trivial, fun _ hu => absurd hu List.not_mem_nil⟩
  exact parse_append .Add hfirst hsecond

theorem merge_serialize (t : MessageType) {m : t.Msg W} (h : t.WellFormed m) :
    (t.cls W).mergePartial (t.cls W).new ((t.cls W).serialize m) = (m, .success true) := by
  have hmerge := (t.lawful W).serialize h.1 h.2 (t.cls W).new []
  rwa [List.append_nil, (t.lawful W).mergeFrom_new, MessageClass.mergePartial_nil] at hmerge

theorem parse_serialize (t : MessageType) {m : t.Msg W} (h : t.WellFormed m) :
    (t.cls W).parseFromString ((t.cls W).serialize m) = (m, (t.cls W).isInitialized m) := by
  rw [MessageClass.parseFromString, t.merge_serialize h]
  simp

theorem wellFormed_of_parse (t : MessageType) {s : Bytes} {m : t.Msg W}
    (h : (t.cls W).parseFromString s = (m, true)) : t.WellFormed m := by
  have hlawful := t.lawful W
  obtain ⟨hm, hok⟩ := Prod.mk.inj h
  have hend : ((t.cls W).mergePartial (t.cls W).new s).2 ≠ .failure := by
    intro hfail
    rw [hfail] at hok
    cases hok
  rw [← hm]
  refine hlawful.mergePartial_keeps ⟨hlawful.new.2, ?_⟩ hend
  rw [hlawful.new.1]
  exact fun u hu => absurd hu List.not_mem_nil

/-- **Whatever string a message was parsed from**, with its fields in any order and number
and with fields that the class does not know, the message is serialised as a string of
`ByteSizeLong` bytes that parses to the same message. -/
theorem reparse (t : MessageType) {s : Bytes} {m : t.Msg W}
    (h : (t.cls W).parseFromString s = (m, true)) :
    (t.cls W).parseFromString ((t.cls W).serialize m) = (m, true) ∧
      ((t.cls W).serialize m).length = (t.cls W).byteSizeLong m := by
  refine ⟨?_, (t.lawful W).byteSizeLong m⟩
  obtain ⟨hm, hok⟩ := Prod.mk.inj h
  rw [t.parse_serialize (t.wellFormed_of_parse h), ← hm]
  exact Prod.ext rfl (Bool.and_eq_true_iff.mp hok).2

/-- The fields of an `Add` in another order, with one of them twice and a field of number 5. -/
theorem reparse_shuffled :
    ∃ m : Pb.Add base128,
      (Pb.Add.cls base128).parseFromString [32, 7, 40, 9, 24, 1, 24, 2] = (m, true) ∧
      (Pb.Add.cls base128).parseFromString ((Pb.Add.cls base128).serialize m) = (m, true) ∧
      ((Pb.Add.cls base128).serialize m).length = (Pb.Add.cls base128).byteSizeLong m := by
  have hmerge : (Pb.Add.cls base128).mergePartial {} [32, 7, 40, 9, 24, 1, 24, 2] =
      ({ add1 := some 2, add2 := some 7
         unknownFields := [⟨5, .varint 9, by decide, by decide⟩] }, .success true) :=
    (consume_inr rfl).trans <| (consume_inr rfl).trans <| (consume_inr rfl).trans <|
      (consume_inr rfl).trans <| consume_inl rfl
  have hparse : (Pb.Add.cls base128).parseFromString [32, 7, 40, 9, 24, 1, 24, 2] =
      ({ add1 := some 2, add2 := some 7
         unknownFields := [⟨5, .varint 9, by decide, by decide⟩] }, true) := by
    have hnew : (Pb.Add.cls base128).new = {} := rfl
    rw [MessageClass.parseFromString, hnew, hmerge]
    rfl
  exact ⟨_, hparse, reparse (W := base128) .Add hparse⟩

end MessageType

end MixServer.Pb
