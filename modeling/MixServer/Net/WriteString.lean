import MixServer.Net.BufferIndices

/-!
`Buffer::write(std::string)`, with its `int`s.

The size of the string becomes an `int`, and so do the sums and differences of
`make_write_space`; the capacity may be anything. `writeString_iff` says which strings are
appended to what is readable.
-/

namespace MixServer.Net

open Lib

namespace IntBuffer

/-- `write(s)`. A negative length makes `std::copy` run past the end of its source. -/
def writeString (lib : VectorLib) (b : IntBuffer) (s : Bytes) (fresh : Nat → UInt8) : Result := do
  let len := toInt s.length
  let b ← b.makeWriteSpace lib len fresh
  if 0 ≤ len then
    let date ← b.date.copyIn b.endIdx (s.take len.toNat)
    return { b with date := date, endIdx := toInt (b.endIdx + len) }
  else
    .error .outside

/-- The indices as counts. An index that has overflowed is no place in the allocation. -/
def toNats (b : IntBuffer) : Except BufferFault Buffer :=
  if 0 ≤ b.startIdx ∧ 0 ≤ b.endIdx then .ok ⟨b.date, b.startIdx.toNat, b.endIdx.toNat⟩
  else .error .outside

end IntBuffer

namespace Buffer

/-- `write(s)`, as it is compiled. -/
def writeString (b : Buffer) (s : Bytes) (fresh : Nat → UInt8) : Except BufferFault Buffer := do
  let b ← b.toInts.writeString .libstdcxx s fresh
  b.toNats

/-- `make_write_space(len)` has nothing to do. -/
def Behind (b : Buffer) (len : Nat) : Prop := b.toInts.writeableSize ≥ len

/-- `make_write_space(len)` moves the readable bytes to the front. -/
def Both (b : Buffer) (len : Nat) : Prop :=
  toInt (b.toInts.preSize + b.toInts.writeableSize) ≥ len

instance (b : Buffer) (len : Nat) : Decidable (b.Behind len) := inferInstanceAs (Decidable (_ ≥ _))

instance (b : Buffer) (len : Nat) : Decidable (b.Both len) := inferInstanceAs (Decidable (_ ≥ _))

/-- `len` bytes can be appended: no sum leaves the `int`s, and where the vector is resized, no
unread byte other than zero lies beyond `size()`. -/
def Takes (b : Buffer) (len : Nat) : Prop :=
  len < 2 ^ 31 ∧
    if b.Behind len then b.endIdx + len < 2 ^ 31
    else if b.Both len then b.readableSize + len < 2 ^ 31
    else b.endIdx + len < 2 ^ 31 ∧ b.ZeroPastSize

/-- The bounds are in order, and are `int`s. -/
structure Fits (b : Buffer) : Prop where
  wf : b.Wf
  end_lt : b.endIdx < 2 ^ 31

theorem fits_new : new.Fits := ⟨wf_new, by decide⟩

variable {b : Buffer} {s : Bytes} {len : Nat} {fresh : Nat → UInt8}

theorem toInt_lt (x : Int) : toInt x < 2 ^ 31 := by
  rw [toInt, Int.bmod_def]
  split
  · omega
  · omega

theorem toInt_le {x : Int} (h : 0 ≤ x) (hint : 0 ≤ toInt x) : toInt x ≤ x := by
  rw [toInt, Int.bmod_def] at *
  split at hint
  · omega
  · omega

theorem toInt_natCast (h : len < 2 ^ 31) : toInt len = len := toInt_of_small (by omega) (by omega)

/-- The `int` that `capacity() - end_idx` becomes: the room, or negative, or less than it. -/
theorem writeableSize_le (wf : b.Wf) :
    b.toInts.writeableSize ≤ b.writeableSize ∧ -2 ^ 31 ≤ b.toInts.writeableSize := by
  have hend := wf.end_le
  simp only [IntBuffer.writeableSize, toInts, toInt, Buffer.writeableSize]
  rw [Int.bmod_def]
  split
  · omega
  · omega

/-! ### The three branches of `make_write_space` -/

theorem size_le_copyWithin (b : Buffer) :
    b.date.size ≤ (copyWithin b.date.mem b.startIdx 0 (b.endIdx - b.startIdx)).length :=
  b.date.size_le.trans_eq (length_copyWithin ..).symm

/-- The buffer with its readable bytes at the front. -/
def moved (b : Buffer) : Buffer where
  date :=
    { mem := copyWithin b.date.mem b.startIdx 0 (b.endIdx - b.startIdx)
      size := b.date.size
      size_le := size_le_copyWithin b }
  startIdx := 0
  endIdx := b.endIdx - b.startIdx

theorem capacity_moved : b.moved.date.capacity = b.date.capacity :=
  length_copyWithin ..

theorem Wf.moved (wf : b.Wf) : b.moved.Wf := by
  have hend := wf.end_le
  refine ⟨Nat.zero_le _, ?_⟩
  rw [capacity_moved]
  exact (Nat.sub_le _ _).trans hend

theorem readable_moved (wf : b.Wf) : b.moved.readable = b.readable := by
  have hstart := wf.start_le
  have hend := wf.end_le
  have hsize : b.moved.readableSize = b.readableSize := rfl
  apply List.ext_getElem?
  intro i
  rw [getElem?_readable, getElem?_readable, hsize]
  by_cases inside : i < b.readableSize
  · rw [if_pos inside, if_pos inside]
    simp only [Buffer.moved, readableSize, CharVec.capacity, Nat.zero_add] at *
    rw [getElem?_copyWithin (Nat.zero_le _) (by omega), if_pos (by omega), Nat.sub_zero]
  · rw [if_neg inside, if_neg inside]

/-- What `make_write_space(len)` leaves: room for `len` bytes behind as many readable bytes as
before; they are the same, and the end stays an `int`, exactly if the buffer takes `len`
bytes. -/
structure Spaced (b : Buffer) (len : Nat) (fresh : Nat → UInt8) (c : Buffer) : Prop where
  space : b.toInts.makeWriteSpace .libstdcxx len fresh = .ok c.toInts
  wf : c.Wf
  room : len ≤ c.writeableSize
  size : c.readableSize = b.readableSize
  end_le : c.endIdx ≤ b.endIdx
  takes : b.Takes len ↔ c.endIdx + len < 2 ^ 31 ∧ c.readable = b.readable

theorem spaced_behind (wf : b.Wf) (hlen : len < 2 ^ 31) (hbehind : b.Behind len) :
    Spaced b len fresh b where
  space := if_pos hbehind
  wf := wf
  room := Int.ofNat_le.mp (le_trans hbehind (writeableSize_le wf).1)
  size := rfl
  end_le := Nat.le_refl _
  takes := by
    rw [Takes, if_pos hbehind]
    exact ⟨fun h => ⟨h.2, rfl⟩, fun h => ⟨hlen, h.1⟩⟩

theorem spaced_moved (h : b.Fits) (hlen : len < 2 ^ 31) (hbehind : ¬ b.Behind len)
    (hboth : b.Both len) : Spaced b len fresh b.moved := by
  have hstart := h.wf.start_le
  have hend := h.wf.end_le
  have hlt := h.end_lt
  obtain ⟨hle, hge⟩ := writeableSize_le h.wf
  have hroom : len ≤ b.startIdx + b.writeableSize := by
    have hsum := hboth
    simp only [Both, IntBuffer.preSize, toInts, toInt] at hsum
    simp only [toInts] at hle hge
    rw [Int.bmod_def] at hsum
    split at hsum
    · omega
    · omega
  refine ⟨?_, h.wf.moved, ?_, rfl, Nat.sub_le _ _, ?_⟩
  · have hcount : (b.toInts.endIdx - b.toInts.startIdx).toNat = b.endIdx - b.startIdx := by
      simp only [toInts]
      omega
    have hback : toInt (b.toInts.endIdx - b.toInts.startIdx) = (b.endIdx - b.startIdx : Nat) := by
      simp only [toInts]
      rw [toInt_of_small (by omega) (by omega)]
      omega
    have hmove := CharVec.move_eq (v := b.date) (Nat.zero_le b.startIdx)
      (n := b.endIdx - b.startIdx) (by omega)
    unfold Behind at hbehind
    unfold Both at hboth
    rw [IntBuffer.makeWriteSpace, if_neg hbehind, if_pos hboth, hcount, hback]
    exact congrArg (fun r => r >>= _) hmove
  · simp only [writeableSize, capacity_moved] at hroom ⊢
    simp only [Buffer.moved]
    omega
  · rw [Takes, if_neg hbehind, if_pos hboth]
    exact ⟨fun ht => ⟨ht.2, readable_moved h.wf⟩, fun ht => ⟨hlen, ht.1⟩⟩

theorem spaced_resized (h : b.Fits) (hlen : len < 2 ^ 31) (hbehind : ¬ b.Behind len)
    (hboth : ¬ b.Both len) (hsum : b.endIdx + len < 2 ^ 31) :
    Spaced b len fresh { b with date := b.date.resize (b.endIdx + len) fresh } := by
  have hcap := b.date.le_capacity_resize (b.endIdx + len) fresh
  refine ⟨?_, ⟨h.wf.start_le, (Nat.le_add_right _ _).trans hcap⟩, ?_, rfl, Nat.le_refl _, ?_⟩
  · have hsize : toSize (toInt (b.toInts.sizeAll + len)) = b.endIdx + len := by
      simp only [IntBuffer.sizeAll, toInts]
      rw [toInt_of_small (by omega) (by omega), toSize_of_small (by omega) (by omega)]
      omega
    unfold Behind at hbehind
    unfold Both at hboth
    rw [IntBuffer.makeWriteSpace, if_neg hbehind, if_neg hboth, hsize]
    rfl
  · simp only [writeableSize]
    omega
  · rw [Takes, if_neg hbehind, if_neg hboth,
      readable_resize_iff h.wf (Nat.le_add_right _ _)]
    exact ⟨fun ht => ht.2, fun ht => ⟨hlen, ht⟩⟩

theorem exists_spaced (h : b.Fits) (hlen : len < 2 ^ 31) (fresh : Nat → UInt8)
    (hsum : b.Behind len ∨ b.Both len ∨ b.endIdx + len < 2 ^ 31) :
    ∃ c, Spaced b len fresh c := by
  by_cases hbehind : b.Behind len
  · exact ⟨b, spaced_behind h.wf hlen hbehind⟩
  · by_cases hboth : b.Both len
    · exact ⟨b.moved, spaced_moved h hlen hbehind hboth⟩
    · exact ⟨_, spaced_resized h hlen hbehind hboth
        ((hsum.resolve_left hbehind).resolve_left hboth)⟩

/-! ### `write(s)` -/

/-- A sum of two `int`s that is no `int` is negative. -/
theorem toInt_neg {x : Int} (hge : 2 ^ 31 ≤ x) (hlt : x < 2 ^ 32) : toInt x < 0 := by
  rw [toInt, Int.bmod_def]
  split
  · omega
  · omega

theorem toNats_toInts (b : Buffer) : b.toInts.toNats = .ok b :=
  if_pos ⟨Int.natCast_nonneg _, Int.natCast_nonneg _⟩

theorem toNats_of_neg {date : CharVec} {startIdx endIdx : Int} (h : endIdx < 0) :
    IntBuffer.toNats ⟨date, startIdx, endIdx⟩ = .error .outside := by
  rw [IntBuffer.toNats, if_neg]
  exact fun hin => absurd hin.2 (not_le.mpr h)

/-- The copy of `write(s)`. -/
theorem Spaced.copied {c : Buffer} (h : Spaced b s.length fresh c) (hlen : s.length < 2 ^ 31) :
    b.toInts.writeString .libstdcxx s fresh = .ok
      { date :=
          { mem := writeAt c.date.mem c.endIdx s
            size := c.date.size
            size_le := by simpa using c.date.size_le }
        startIdx := c.startIdx
        endIdx := toInt (c.endIdx + s.length) } := by
  have hend := h.wf.end_le
  have hroom := h.room
  have hinside : c.endIdx + s.length ≤ c.date.capacity := by
    simp only [writeableSize] at hroom
    omega
  have hcopy := CharVec.copyIn_eq hinside
  rw [IntBuffer.writeString, toInt_natCast hlen, h.space, ok_bind, if_pos (by omega),
    Int.toNat_natCast, List.take_length]
  simp only [toInts] at hcopy ⊢
  rw [hcopy, ok_bind]
  rfl

theorem Spaced.writeString {c : Buffer} (h : Spaced b s.length fresh c)
    (hlen : s.length < 2 ^ 31) (hfits : c.endIdx < 2 ^ 31) :
    b.writeString s fresh =
      if c.endIdx + s.length < 2 ^ 31 then .ok (c.write s fresh) else .error .outside := by
  rw [Buffer.writeString, h.copied hlen, ok_bind]
  by_cases hsum : c.endIdx + s.length < 2 ^ 31
  · have hidx : toInt (c.endIdx + s.length) = (c.endIdx + s.length : Nat) := by
      rw [toInt_of_small (by omega) (by omega), Int.natCast_add]
    rw [if_pos hsum, hidx]
    simp only [Buffer.write, makeWriteSpace_of_room h.room]
    exact toNats_toInts ⟨⟨writeAt c.date.mem c.endIdx s, c.date.size, _⟩, c.startIdx, _⟩
  · rw [if_neg hsum, toNats_of_neg (toInt_neg (by omega) (by omega))]

/-- A sum that is no `int` makes the vector as large as can be, or too large, and the end
negative. -/
theorem writeString_overflow (h : b.Fits) (hlen : s.length < 2 ^ 31) (hbehind : ¬ b.Behind s.length)
    (hboth : ¬ b.Both s.length) (hsum : 2 ^ 31 ≤ b.endIdx + s.length) :
    ∃ x, b.writeString s fresh = .error x := by
  have hlt := h.end_lt
  have hneg : toInt (b.endIdx + s.length) < 0 := toInt_neg (by omega) (by omega)
  unfold Behind at hbehind
  unfold Both at hboth
  rw [Buffer.writeString, IntBuffer.writeString, toInt_natCast hlen, IntBuffer.makeWriteSpace,
    if_neg hbehind, if_neg hboth, ok_bind, if_pos (by omega)]
  cases CharVec.copyIn (VectorLib.libstdcxx.resize b.toInts.date
      (toSize (toInt (b.toInts.sizeAll + s.length))) fresh) b.toInts.endIdx
      (s.take (s.length : Int).toNat) with
  | error x => exact ⟨x, rfl⟩
  | ok date =>
    refine ⟨.outside, ?_⟩
    simp only [ok_bind, pure_bind]
    exact toNats_of_neg hneg

/-- What `write(s)` does with a string whose size is an `int`. -/
theorem writeString_cases (h : b.Fits) (hlen : s.length < 2 ^ 31) (fresh : Nat → UInt8) :
    (∃ c, Spaced b s.length fresh c ∧ c.endIdx + s.length < 2 ^ 31 ∧
      b.writeString s fresh = .ok (c.write s fresh)) ∨
    (∃ x, b.writeString s fresh = .error x) ∧ ¬ b.Takes s.length := by
  by_cases hsum : b.Behind s.length ∨ b.Both s.length ∨ b.endIdx + s.length < 2 ^ 31
  · obtain ⟨c, hc⟩ := exists_spaced h hlen fresh hsum
    have hend := hc.end_le.trans_lt h.end_lt
    rw [hc.writeString hlen hend]
    by_cases hfits : c.endIdx + s.length < 2 ^ 31
    · exact .inl ⟨c, hc, hfits, if_pos hfits⟩
    · rw [if_neg hfits, hc.takes]
      exact .inr ⟨⟨_, rfl⟩, fun ht => hfits ht.1⟩
  · obtain ⟨hbehind, hrest⟩ := not_or.mp hsum
    obtain ⟨hboth, hover⟩ := not_or.mp hrest
    refine .inr ⟨writeString_overflow h hlen hbehind hboth (not_lt.mp hover), ?_⟩
    rw [Takes, if_neg hbehind, if_neg hboth]
    exact fun ht => hover ht.2.1

/-- Of a longer string only so many bytes are copied as its size comes out as an `int`. -/
theorem writeString_take (s : Bytes) (fresh : Nat → UInt8) :
    (∃ t, t.length < 2 ^ 31 ∧ b.writeString s fresh = b.writeString t fresh ∧
      (s.length < 2 ^ 31 → t = s)) ∨
    (∃ x, b.writeString s fresh = .error x) ∧ 2 ^ 31 ≤ s.length := by
  by_cases hneg : 0 ≤ toInt s.length
  · have hlt : toInt s.length < 2 ^ 31 := toInt_lt _
    have hle : toInt s.length ≤ s.length := toInt_le (Int.natCast_nonneg _) hneg
    have htake : (s.take (toInt s.length).toNat).length = (toInt s.length).toNat := by
      rw [List.length_take]
      omega
    have hcast : (((toInt s.length).toNat : Nat) : Int) = toInt s.length := Int.toNat_of_nonneg hneg
    have hnat : toInt (toInt s.length).toNat = (toInt s.length).toNat :=
      toInt_natCast (by omega)
    refine .inl ⟨s.take (toInt s.length).toNat, by omega, ?_, ?_⟩
    · rw [Buffer.writeString, Buffer.writeString, IntBuffer.writeString, IntBuffer.writeString,
        htake, hnat, hcast,
        List.take_take, Nat.min_self]
    · intro hshort
      rw [toInt_natCast hshort, Int.toNat_natCast, List.take_length]
  · refine .inr ⟨?_, ?_⟩
    · rw [Buffer.writeString, IntBuffer.writeString]
      cases b.toInts.makeWriteSpace .libstdcxx (toInt s.length) fresh with
      | error x => exact ⟨x, rfl⟩
      | ok c =>
        rw [ok_bind, if_neg hneg]
        exact ⟨_, rfl⟩
    · by_contra hshort
      rw [toInt_natCast (not_le.mp hshort)] at hneg
      exact hneg (Int.natCast_nonneg _)

/-- **`write(s)`** does not fail, or leaves the bounds in order and nothing that was readable
out. -/
theorem fits_writeString (h : b.Fits) (s : Bytes) (fresh : Nat → UInt8) :
    Ensures (b.writeString s fresh) (fun b' => b'.Fits ∧ b.readableSize ≤ b'.readableSize)
      fun _ => True := by
  rcases writeString_take (b := b) s fresh with ⟨t, hlen, heq, -⟩ | ⟨⟨x, hx⟩, -⟩
  · rw [heq]
    rcases writeString_cases h hlen fresh with ⟨c, hc, hend, hok⟩ | ⟨⟨x, hx⟩, -⟩
    · have hsize := readableSize_write hc.wf t fresh
      have hidx : (c.write t fresh).endIdx = c.endIdx + t.length := by
        simp only [Buffer.write, makeWriteSpace_of_room hc.room]
      rw [hok]
      refine ⟨⟨write_wf hc.wf t fresh, hidx ▸ hend⟩, ?_⟩
      rw [hsize, hc.size]
      exact Nat.le_add_right _ _
    · rw [hx]
      trivial
  · rw [hx]
    trivial

/-- **`write(s)` appends the string** exactly if the buffer takes so many bytes. -/
theorem writeString_iff (h : b.Fits) (s : Bytes) (fresh : Nat → UInt8) :
    (∃ b', b.writeString s fresh = .ok b' ∧ b'.readable = b.readable ++ s) ↔
      b.Takes s.length := by
  by_cases hlen : s.length < 2 ^ 31
  · rcases writeString_cases h hlen fresh with ⟨c, hc, hend, hok⟩ | ⟨⟨x, hx⟩, htakes⟩
    · have hwritten : (c.write s fresh).readable = c.readable ++ s := by
        rw [readable_write hc.wf, makeWriteSpace_of_room hc.room]
      rw [hok, hc.takes]
      constructor
      · rintro ⟨b', hb', hreadable⟩
        cases hb'
        rw [hwritten, List.append_left_inj] at hreadable
        exact ⟨hend, hreadable⟩
      · rintro ⟨-, hsame⟩
        exact ⟨_, rfl, by rw [hwritten, hsame]⟩
    · refine iff_of_false ?_ htakes
      rintro ⟨b', hb', -⟩
      rw [hx] at hb'
      cases hb'
  · refine iff_of_false ?_ fun ht => hlen ht.1
    rintro ⟨b', hb', hreadable⟩
    have hfits := ((fits_writeString h s fresh).of_ok hb').1
    have hlength := congrArg List.length hreadable
    have hend := hfits.end_lt
    rw [length_readable hfits.wf, List.length_append, readableSize] at hlength
    omega

/-- A new buffer takes what fits in its vector. -/
theorem takes_new (h : len ≤ BUFFER_SIZE) : new.Takes len := by
  have hsize : new.toInts.writeableSize = BUFFER_SIZE := by
    simp only [IntBuffer.writeableSize, toInts, capacity_new]
    rfl
  have hbehind : new.Behind len := by
    rw [Behind, hsize]
    exact Int.ofNat_le.mpr h
  have hlt : BUFFER_SIZE < 2 ^ 31 := by decide
  refine ⟨h.trans_lt hlt, ?_⟩
  rw [if_pos hbehind, show new.endIdx = 0 from rfl, Nat.zero_add]
  exact h.trans_lt hlt

end Buffer

end MixServer.Net
