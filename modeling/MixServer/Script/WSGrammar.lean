import MixServer.Lib.Splitter
import MixServer.Script.WSStream

/-!
The base framing grammar, and what `make_frame_data` writes in it.

`decode` reads one frame by the diagram at the top of `script/httphandle.py`;
it knows nothing of `WSFrame`. It is a `Splitter`, so frames that it reads to
their ends are no prefixes of each other. `makeFrameData_decodes` says that
`make_frame_data` writes such frames: final text frames of the shortest form.
-/

namespace MixServer.Script

open Lib

/-! ### The grammar -/

/-- The three forms of a payload length: 7 bits, or 16 or 64 bits behind them. -/
inductive LenForm where
  | short
  | medium
  | long
deriving DecidableEq, Repr

namespace LenForm

/-- The form that the 7 bits announce. -/
def ofBits (bits : Nat) : LenForm :=
  if bits = 126 then .medium else if bits = 127 then .long else .short

/-- The octets of the extended payload length. -/
def width : LenForm → Nat
  | short => 0
  | medium => 2
  | long => 8

/-- The form can say the length `n`. -/
def Holds (n : Nat) : LenForm → Prop
  | short => n < 126
  | medium => n < 256 ^ 2
  | long => n < 256 ^ 8

/-- The form says the length `n`, and no form with fewer octets does. -/
def Shortest (n : Nat) (form : LenForm) : Prop :=
  form.Holds n ∧ ∀ form' : LenForm, form'.Holds n → form.width ≤ form'.width

/-- The payload length: what the 7 bits or the octets behind them say. -/
def value (bits : Nat) (bs : Bytes) (form : LenForm) : Nat :=
  match form with
  | short => bits
  | medium | long => ofBe (bs.take form.width)

/-- Only the octets of the extended length matter. -/
theorem value_append {bits : Nat} {bs : Bytes} {form : LenForm} (h : form.width ≤ bs.length)
    (zs : Bytes) : form.value bits (bs ++ zs) = form.value bits bs := by
  cases form with
  | short => rfl
  | medium | long => exact congrArg ofBe (List.take_append_of_le_length h)

end LenForm

/-- A frame of the grammar; `key` is empty if the mask bit is not set, and the
payload is unmasked. -/
structure BaseFrame where
  fin : Bool
  rsv : Nat
  opcode : Nat
  form : LenForm
  key : Bytes
  payload : Bytes
deriving DecidableEq, Repr

namespace BaseFrame

/-- The octets of the masking key. -/
def keyWidth (len : UInt8) : Nat := if 128 ≤ len.toNat then 4 else 0

/-- The frame at the front of the bytes, once all of it is there. -/
def decode : Bytes → Option (BaseFrame × Bytes)
  | mark :: len :: bs =>
      let bits := len.toNat % 128
      let form := LenForm.ofBits bits
      let n := form.value bits bs
      let key := (bs.drop form.width).take (keyWidth len)
      let size := form.width + keyWidth len + n
      if size ≤ bs.length then
        some
          ({ fin := decide (128 ≤ mark.toNat)
             rsv := mark.toNat / 16 % 8
             opcode := mark.toNat % 16
             form := form
             key := key
             payload := xorKey key ((bs.drop (form.width + keyWidth len)).take n) },
            bs.drop size)
      else
        none
  | _ => none

/-- A frame is read off as soon as its parts are there. -/
theorem decode_layout (mark : UInt8) {len : UInt8} {ext key data : Bytes} {form : LenForm}
    (hform : form = LenForm.ofBits (len.toNat % 128)) (hext : ext.length = form.width)
    (hkey : key.length = keyWidth len) (rest : Bytes)
    (hdata : form.value (len.toNat % 128) ext = data.length) :
    decode (mark :: len :: (ext ++ (key ++ (data ++ rest)))) =
      some
        ({ fin := decide (128 ≤ mark.toNat)
           rsv := mark.toNat / 16 % 8
           opcode := mark.toNat % 16
           form := form
           key := key
           payload := xorKey key data },
          rest) := by
  have hvalue : form.value (len.toNat % 128) (ext ++ (key ++ (data ++ rest))) = data.length :=
    (LenForm.value_append hext.ge _).trans hdata
  have hbody : (ext ++ (key ++ (data ++ rest))).drop (form.width + keyWidth len) =
      data ++ rest := by
    rw [← hext, ← hkey, ← List.append_assoc, ← List.length_append, List.drop_left]
  have hrest : (ext ++ (key ++ (data ++ rest))).drop
      (form.width + keyWidth len + data.length) = rest := by
    rw [← List.drop_drop, hbody, List.drop_left]
  simp only [decode, ← hform, hvalue]
  rw [if_pos (by simp only [List.length_append]; omega), hbody, hrest, List.take_left,
    List.drop_left' hext, List.take_left' hkey]

theorem decode_shrinks {xs ys : Bytes} {f : BaseFrame} (h : decode xs = some (f, ys)) :
    ys.length < xs.length := by
  unfold decode at h
  split at h
  · dsimp only at h
    split at h
    · cases h
      simp only [List.length_drop, List.length_cons]
      omega
    · cases h
  · cases h

/-- Bytes that arrive later do not change a frame. -/
theorem decode_stable {xs ys : Bytes} {f : BaseFrame} (zs : Bytes) (h : decode xs = some (f, ys)) :
    decode (xs ++ zs) = some (f, ys ++ zs) := by
  unfold decode at h
  split at h
  · rename_i mark len bs
    dsimp only at h
    split at h
    · rename_i hsize
      cases h
      have hvalue : (LenForm.ofBits (len.toNat % 128)).value (len.toNat % 128) (bs ++ zs) =
          (LenForm.ofBits (len.toNat % 128)).value (len.toNat % 128) bs :=
        LenForm.value_append (by omega) zs
      simp only [List.cons_append, decode, hvalue]
      rw [if_pos (by rw [List.length_append]; omega), List.drop_append_of_le_length hsize,
        List.drop_append_of_le_length (by omega), List.drop_append_of_le_length (by omega),
        List.take_append_of_le_length (by rw [List.length_drop]; omega),
        List.take_append_of_le_length (by rw [List.length_drop]; omega)]
    · cases h
  · cases h

/-- The frames of a stream. -/
def splitter : Splitter UInt8 BaseFrame where
  next := decode
  shrinks := decode_shrinks
  stable := decode_stable

/-! ### What `make_frame_data` writes -/

open WSFrame (makeFrameData makeFrameData_eq lenBits lenBits_lt extLen maskBit)

/-- The length fields of a message say its length, in the shortest form. -/
theorem lenBits_extLen {n : Nat} (hn : n < 256 ^ 8) :
    (LenForm.ofBits (lenBits n)).Shortest n ∧
      (extLen n).length = (LenForm.ofBits (lenBits n)).width ∧
      (LenForm.ofBits (lenBits n)).value (lenBits n) (extLen n) = n := by
  unfold lenBits extLen LenForm.Shortest
  split
  · refine ⟨⟨hn, ?_⟩, length_beBytes 8 n, ?_⟩
    · intro form hform
      cases form with
      | short | medium =>
          simp only [LenForm.Holds] at hform
          omega
      | long => exact le_rfl
    · change ofBe ((beBytes 8 n).take 8) = n
      rw [List.take_of_length_le (length_beBytes 8 n).le, ofBe_beBytes hn]
  · split
    · have hlt : n < 256 ^ 2 := by omega
      refine ⟨⟨hlt, ?_⟩, length_beBytes 2 n, ?_⟩
      · intro form hform
        cases form with
        | short =>
            simp only [LenForm.Holds] at hform
            omega
        | medium | long => decide
      · change ofBe ((beBytes 2 n).take 2) = n
        rw [List.take_of_length_le (length_beBytes 2 n).le, ofBe_beBytes hlt]
    · have hform : LenForm.ofBits n = .short := by
        rw [LenForm.ofBits, if_neg (by omega), if_neg (by omega)]
      rw [hform]
      refine ⟨⟨?_, fun _ _ => Nat.zero_le _⟩, rfl, rfl⟩
      change n < 126
      omega

theorem len_octet : ∀ l < 128,
    (UInt8.ofNat l).toNat % 128 = l ∧ keyWidth (UInt8.ofNat l) = 0 ∧
      (UInt8.ofNat (0x80 ||| l)).toNat % 128 = l ∧ keyWidth (UInt8.ofNat (0x80 ||| l)) = 4 := by
  decide

/-- The second octet says the length bits and whether a key follows. -/
theorem len_octet_eq {key : Bytes} (hkey : key = [] ∨ key.length = 4) {l : Nat} (hl : l < 128) :
    (UInt8.ofNat (maskBit key ||| l)).toNat % 128 = l ∧
      key.length = keyWidth (UInt8.ofNat (maskBit key ||| l)) := by
  obtain ⟨hplain, hnokey, hmasked, hkeyed⟩ := len_octet l hl
  rcases hkey with rfl | hkey
  · rw [maskBit, if_pos rfl, Nat.zero_or]
    exact ⟨hplain, hnokey.symm⟩
  · have hne : key ≠ [] := by
      rintro rfl
      cases hkey
    rw [maskBit, if_neg hne]
    exact ⟨hmasked, hkey.trans hkeyed.symm⟩

/-- What has been written is read back, and what follows it is left. -/
theorem decode_written {msg key : Bytes} (hmsg : msg.length < 256 ^ 8)
    (hkey : key = [] ∨ key.length = 4) :
    ∃ F, makeFrameData msg key = some F ∧ ∀ rest, decode (F ++ rest) =
      some
        ({ fin := true
           rsv := 0
           opcode := 1
           form := LenForm.ofBits (lenBits msg.length)
           key := key
           payload := msg },
          rest) := by
  refine ⟨_, makeFrameData_eq hmsg hkey, ?_⟩
  intro rest
  obtain ⟨-, hwidth, hvalue⟩ := lenBits_extLen hmsg
  obtain ⟨hbits, hkeyWidth⟩ := len_octet_eq hkey (lenBits_lt msg.length)
  have hdata : (xorKey key msg).length = msg.length := length_xorKey key msg
  have hform : LenForm.ofBits (lenBits msg.length) = LenForm.ofBits
      ((UInt8.ofNat (maskBit key ||| lenBits msg.length)).toNat % 128) := by rw [hbits]
  have hsize : (LenForm.ofBits (lenBits msg.length)).value
      ((UInt8.ofNat (maskBit key ||| lenBits msg.length)).toNat % 128) (extLen msg.length) =
        (xorKey key msg).length := by rw [hbits, hvalue, hdata]
  have hread := decode_layout 129 hform hwidth hkeyWidth rest hsize
  rw [xorKey_xorKey] at hread
  simp only [List.cons_append, List.append_assoc]
  exact hread

/-- **Writing frames.** For every message and every mask (none, or four octets),
`make_frame_data` writes one frame of the grammar and nothing after it: a final
text frame without reserved bits, of the shortest form, whose payload is the
message. So no unmasked frame is a proper prefix of another. -/
theorem makeFrameData_decodes {msg key : Bytes} (hmsg : msg.length < 2 ^ 63)
    (hkey : key = [] ∨ key.length = 4) :
    ∃ F form, makeFrameData msg key = some F ∧ LenForm.Shortest msg.length form ∧
      decode F = some
        ({ fin := true, rsv := 0, opcode := 1, form := form, key := key, payload := msg }, []) ∧
      (key = [] → ∀ msg' F', msg'.length < 2 ^ 63 → makeFrameData msg' [] = some F' →
        F <+: F' → F = F') := by
  have hlt : ∀ {n : Nat}, n < 2 ^ 63 → n < 256 ^ 8 := fun h => h.trans (by decide)
  obtain ⟨F, hF, hread⟩ := decode_written (hlt hmsg) hkey
  have hwhole := hread []
  rw [List.append_nil] at hwhole
  refine ⟨F, _, hF, (lenBits_extLen (hlt hmsg)).1, hwhole, ?_⟩
  rintro - msg' F' hmsg' hF' hpre
  obtain ⟨F'', hF'', hread'⟩ := decode_written (hlt hmsg') (.inl rfl)
  rw [hF', Option.some_inj] at hF''
  subst hF''
  have hwhole' := hread' []
  rw [List.append_nil] at hwhole'
  exact splitter.eq_of_prefix hwhole hwhole' hpre

/-- The theorem at a masked message. -/
theorem makeFrameData_decodes_hi :
    ∃ F form, makeFrameData [104, 105] [0, 1, 2, 3] = some F ∧ LenForm.Shortest 2 form ∧
      decode F = some
        ({ fin := true, rsv := 0, opcode := 1, form := form, key := [0, 1, 2, 3]
           payload := [104, 105] }, []) ∧
      (([0, 1, 2, 3] : Bytes) = [] → ∀ msg' F', msg'.length < 2 ^ 63 →
        makeFrameData msg' [] = some F' → F <+: F' → F = F') :=
  makeFrameData_decodes (by decide) (.inr rfl)

end BaseFrame

end MixServer.Script
