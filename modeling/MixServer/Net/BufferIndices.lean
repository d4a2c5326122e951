import MixServer.Net.Buffer

/-!
The indices of `Buffer` (`include/buffer.hpp`, `net/buffer.cpp`) as the `int`s they are.

`MixServer.Net.Buffer` counts in `Nat` and has the `resize` of one library. Here
`start_idx` and `end_idx` are of type `int`, sums and differences are converted to 32 bits,
each byte that is copied is checked against the allocation, and of `std::vector::resize(n)`
it is only known that it leaves a capacity of at least `n` and never shrinks it.

`indices_inside` says that no sequence of calls leaves the allocation. `step_ofBuffer` takes
the results back to `Net.Buffer`.
-/

namespace MixServer.Net

open Lib

/-- The conversion of a value to `int`. -/
def toInt (x : Int) : Int := x.bmod (2 ^ 32)

/-- The conversion of an `int` to `size_t`. -/
def toSize (x : Int) : Nat := (x % 2 ^ 64).toNat

theorem toInt_of_small {x : Int} (h0 : 0 ≤ x) (h : x < 2 ^ 31) : toInt x = x :=
  Int.bmod_eq_of_le_mul_two (by omega) (by omega)

theorem toSize_of_small {x : Int} (h0 : 0 ≤ x) (h : x < 2 ^ 31) : toSize x = x.toNat := by
  rw [toSize, Int.emod_eq_of_lt h0 (by omega)]

/-- What is known of `std::vector::resize`; `fresh` is what a new allocation holds. -/
structure VectorLib where
  resize : CharVec → Nat → (Nat → UInt8) → CharVec
  le_capacity : ∀ v n fresh, n ≤ (resize v n fresh).capacity
  not_shrinks : ∀ v n fresh, v.capacity ≤ (resize v n fresh).capacity

/-- The library that `MixServer.Net.Buffer` is about. -/
def VectorLib.libstdcxx : VectorLib where
  resize := CharVec.resize
  le_capacity v n fresh := v.le_capacity_resize n fresh
  not_shrinks v n fresh := by
    by_cases hroom : n ≤ v.capacity
    · rw [CharVec.resize, dif_pos hroom]
      simp [CharVec.capacity]
    · exact (Nat.le_of_not_le hroom).trans (v.le_capacity_resize n fresh)

/-- What must not happen to a buffer. -/
inductive BufferFault where
  /-- A byte outside the allocation is read or written. -/
  | outside
  /-- An assertion of the buffer fails. -/
  | assert (x : Buffer.Abort)
deriving DecidableEq, Repr

namespace CharVec

/-- `*(begin()+p)`. -/
def load (v : CharVec) (p : Int) : Except BufferFault UInt8 :=
  if 0 ≤ p ∧ p < v.capacity then .ok (v.mem.getD p.toNat 0) else .error .outside

/-- The `n` bytes at `p`. -/
def loads (v : CharVec) (p : Int) : Nat → Except BufferFault Bytes
  | 0 => .ok []
  | n + 1 => do
      let b ← v.load p
      let bs ← v.loads (p + 1) n
      return b :: bs

/-- `*(begin()+p) = b`. -/
def store (v : CharVec) (p : Int) (b : UInt8) : Except BufferFault CharVec :=
  if 0 ≤ p ∧ p < v.capacity then
    .ok
      { mem := v.mem.set p.toNat b
        size := v.size
        size_le := by simpa using v.size_le }
  else
    .error .outside

/-- `std::copy(buf, buf + len, begin() + p)`. -/
def copyIn (v : CharVec) (p : Int) : Bytes → Except BufferFault CharVec
  | [] => .ok v
  | b :: bs => do
      let v ← v.store p b
      v.copyIn (p + 1) bs

/-- `std::copy(begin() + src, begin() + src + n, begin() + dst)`. -/
def move (v : CharVec) (src dst : Int) : Nat → Except BufferFault CharVec
  | 0 => .ok v
  | n + 1 => do
      let b ← v.load src
      let v ← v.store dst b
      v.move (src + 1) (dst + 1) n

variable {v : CharVec}

theorem load_eq {p : Nat} (h : p < v.capacity) : v.load p = .ok (v.mem.getD p 0) := by
  rw [load, if_pos (by omega), Int.toNat_natCast]

theorem loads_eq {p n : Nat} (h : p + n ≤ v.capacity) :
    v.loads p n = .ok ((v.mem.drop p).take n) := by
  induction n generalizing p with
  | zero => simp [loads]
  | succ n ih =>
    have hnext : v.loads ((p : Int) + 1) n = .ok ((v.mem.drop (p + 1)).take n) :=
      ih (p := p + 1) (by omega)
    have hp : p < v.mem.length := by simp only [capacity] at h; omega
    rw [loads, load_eq (by omega), ok_bind, hnext, ok_bind, List.drop_eq_getElem_cons hp,
      List.take_succ_cons, List.getD_eq_getElem?_getD, List.getElem?_eq_getElem hp]
    rfl

theorem store_eq {p : Nat} (h : p < v.capacity) (b : UInt8) :
    v.store p b = .ok
      { mem := v.mem.set p b
        size := v.size
        size_le := by simpa using v.size_le } := by
  simp only [store, Int.toNat_natCast]
  rw [if_pos (by omega)]

/-- A copy that stays inside is the one of `writeAt`. -/
theorem copyIn_eq {p : Nat} {bs : Bytes} (h : p + bs.length ≤ v.capacity) :
    v.copyIn p bs = .ok
      { mem := writeAt v.mem p bs
        size := v.size
        size_le := by simpa using v.size_le } := by
  induction bs generalizing v p with
  | nil => rfl
  | cons b bs ih =>
    simp only [List.length_cons] at h
    rw [copyIn, store_eq (by omega), ok_bind]
    exact ih (p := p + 1) (by simp only [capacity, List.length_set] at h ⊢; omega)

/-- And so is one towards the front. -/
theorem move_eq {src dst n : Nat} (back : dst ≤ src) (h : src + n ≤ v.capacity) :
    v.move src dst n = .ok
      { mem := copyWithin v.mem src dst n
        size := v.size
        size_le := by simpa using v.size_le } := by
  induction n generalizing v src dst with
  | zero => rfl
  | succ n ih =>
    rw [move, load_eq (by omega), ok_bind, store_eq (by omega), ok_bind]
    exact ih (Nat.succ_le_succ back) (by simp only [capacity, List.length_set] at h ⊢; omega)

end CharVec

/-- `class Buffer`, with its indices as they are declared. -/
structure IntBuffer where
  date : CharVec
  startIdx : Int
  endIdx : Int

namespace IntBuffer

abbrev Result := Except BufferFault IntBuffer

variable (lib : VectorLib) (b : IntBuffer)

/-- `Buffer::Buffer()`. -/
def new : IntBuffer := ⟨lib.resize CharVec.empty Buffer.BUFFER_SIZE fun _ => 0, 0, 0⟩

def sizeAll : Int := b.endIdx

def clear : IntBuffer := { b with startIdx := 0, endIdx := 0 }

def preSize : Int := b.startIdx

def readableSize : Int := toInt (b.endIdx - b.startIdx)

/-- `writeable_size()`: a difference of type `size_t`, returned as an `int`. -/
def writeableSize : Int := toInt (b.date.capacity - b.endIdx)

/-- `make_write_space(len)`. -/
def makeWriteSpace (len : Int) (fresh : Nat → UInt8) : Result :=
  if b.writeableSize ≥ len then
    .ok b
  else if toInt (b.preSize + b.writeableSize) ≥ len then do
    let date ← b.date.move b.startIdx 0 (b.endIdx - b.startIdx).toNat
    return { date := date, startIdx := 0, endIdx := toInt (b.endIdx - b.startIdx) }
  else
    .ok { b with date := lib.resize b.date (toSize (toInt (b.sizeAll + len))) fresh }

/-- `write(buf, len)`. -/
def write (buf : Bytes) (fresh : Nat → UInt8) : Result := do
  let b ← b.makeWriteSpace lib (toInt buf.length) fresh
  let date ← b.date.copyIn b.endIdx buf
  return { b with date := date, endIdx := toInt (b.endIdx + toInt buf.length) }

/-- `read()`. -/
def readAll : IntBuffer := if b.readableSize ≤ 0 then b else b.clear

/-- `read(n)`. -/
def read (n : Int) : IntBuffer :=
  if b.readableSize ≤ 0 then b else { b with startIdx := toInt (b.startIdx + n) }

/-- `has_read(n)`. -/
def hasRead (n : Int) : Result :=
  if toInt (b.startIdx + n) ≤ b.endIdx then
    .ok { b with startIdx := toInt (b.startIdx + n) }
  else
    .error (.assert .hasRead)

/-- `read_int()`. -/
def readInt : Except BufferFault (Int × IntBuffer) :=
  if b.readableSize ≥ 4 then do
    let bytes ← b.date.loads b.startIdx 4
    return (Net.readInt bytes, { b with startIdx := toInt (b.startIdx + 4) })
  else
    .error (.assert .readInt)

/-- `read_str(_size)`. -/
def readStr (size : Int) : Except BufferFault (Bytes × IntBuffer) :=
  if b.readableSize ≥ size then do
    let bytes ← b.date.loads b.startIdx size.toNat
    return (bytes, { b with startIdx := toInt (b.startIdx + size) })
  else
    .error (.assert .readStr)

/-- One call. -/
def step (b : IntBuffer) : Op → Result
  | .write buf fresh => b.write lib buf fresh
  | .readAll => .ok b.readAll
  | .read n => .ok (b.read n)
  | .hasRead n => b.hasRead n
  | .readInt => b.readInt.map Prod.snd
  | .readStr n => (b.readStr n).map Prod.snd
  | .clear => .ok b.clear

/-- The readable bytes `date[start_idx..end_idx)`. -/
def readable : Bytes := (b.date.mem.drop b.startIdx.toNat).take (b.endIdx - b.startIdx).toNat

/-- No index leaves the allocation. -/
structure InRange (b : IntBuffer) : Prop where
  zero_le : 0 ≤ b.startIdx
  start_le : b.startIdx ≤ b.endIdx
  end_le : b.endIdx ≤ b.date.capacity

/-- What the callers promise: no call takes more than is readable. -/
def Legal (b : IntBuffer) : Op → Prop
  | .read n | .hasRead n | .readStr n => n ≤ b.readableSize
  | .readInt => 4 ≤ b.readableSize
  | .write _ _ | .readAll | .clear => True

/-- All sizes are below `2 ^ 31`: the one that a block needs, and the capacity afterwards. -/
structure Small (b : IntBuffer) (op : Op) : Prop where
  block : ∀ buf fresh, op = .write buf fresh → b.endIdx + buf.length < 2 ^ 31
  capacity : ∀ b', b.step lib op = .ok b' → b'.date.capacity < 2 ^ 31

end IntBuffer

namespace Buffer

/-- The buffer with its indices as `int`s. -/
def toInts (b : Buffer) : IntBuffer := ⟨b.date, b.startIdx, b.endIdx⟩

/-- `make_write_space(len)` with any library. -/
def spaced (lib : VectorLib) (b : Buffer) (len : Nat) (fresh : Nat → UInt8) : Buffer :=
  if b.writeableSize ≥ len ∨ b.preSize + b.writeableSize ≥ len then
    b.makeWriteSpace len fresh
  else
    { b with date := lib.resize b.date (b.sizeAll + len) fresh }

/-- `write(buf, len)` with any library. -/
def writeWith (lib : VectorLib) (b : Buffer) (buf : Bytes) (fresh : Nat → UInt8) : Buffer :=
  let b' := b.spaced lib buf.length fresh
  { date :=
      { mem := writeAt b'.date.mem b'.endIdx buf
        size := b'.date.size
        size_le := by simpa using b'.date.size_le }
    startIdx := b'.startIdx
    endIdx := b'.endIdx + buf.length }

variable {lib : VectorLib} {b : Buffer} {len : Nat} {fresh : Nat → UInt8}

theorem spaced_libstdcxx : b.spaced .libstdcxx len fresh = b.makeWriteSpace len fresh := by
  rw [spaced]
  split
  · rfl
  · rename_i h
    exact (makeWriteSpace_of_resizes (not_or.mp h) fresh).symm

theorem Wf.spaced (wf : b.Wf) (lib : VectorLib) (len : Nat) (fresh : Nat → UInt8) :
    (b.spaced lib len fresh).Wf := by
  rw [Buffer.spaced]
  split
  · exact makeWriteSpace_wf wf len fresh
  · exact ⟨wf.start_le, wf.end_le.trans (lib.not_shrinks _ _ _)⟩

theorem le_writeableSize_spaced (wf : b.Wf) (lib : VectorLib) (len : Nat) (fresh : Nat → UInt8) :
    len ≤ (b.spaced lib len fresh).writeableSize := by
  rw [spaced]
  split
  · exact le_writeableSize_makeWriteSpace wf len fresh
  · have hcap := lib.le_capacity b.date (b.sizeAll + len) fresh
    simp only [sizeAll, writeableSize] at hcap ⊢
    omega

theorem readableSize_spaced : (b.spaced lib len fresh).readableSize = b.readableSize := by
  rw [spaced]
  split
  · exact readableSize_makeWriteSpace b len fresh
  · rfl

/-- Without a reallocation no readable byte changes. -/
theorem readable_spaced (wf : b.Wf)
    (hroom : b.writeableSize ≥ len ∨ b.preSize + b.writeableSize ≥ len) :
    (b.spaced lib len fresh).readable = b.readable := by
  rw [spaced, if_pos hroom]
  refine readable_makeWriteSpace wf ?_ fresh
  rintro ⟨hbehind, hboth⟩
  rcases hroom with h | h
  · exact hbehind h
  · exact hboth h

theorem endIdx_spaced_le (lib : VectorLib) (b : Buffer) (len : Nat) (fresh : Nat → UInt8) :
    (b.spaced lib len fresh).endIdx ≤ b.endIdx := by
  rw [spaced]
  split
  · rw [makeWriteSpace]
    split
    · exact Nat.le_refl _
    · split
      · exact Nat.sub_le _ _
      · exact Nat.le_refl _
  · exact Nat.le_refl _

end Buffer

/-! ### The calls -/

namespace IntBuffer

open Buffer

variable {lib : VectorLib} {b : Buffer} {len n : Nat} {buf : Bytes} {fresh : Nat → UInt8}

theorem inRange_toInts (wf : b.Wf) : b.toInts.InRange :=
  ⟨Int.natCast_nonneg _, Int.ofNat_le.mpr wf.start_le, Int.ofNat_le.mpr wf.end_le⟩

theorem readableSize_toInts (wf : b.Wf) (hcap : b.date.capacity < 2 ^ 31) :
    b.toInts.readableSize = b.readableSize := by
  have hstart := wf.start_le
  have hend := wf.end_le
  simp only [IntBuffer.readableSize, Buffer.readableSize, toInts]
  rw [toInt_of_small (by omega) (by omega)]
  omega

theorem writeableSize_toInts (wf : b.Wf) (hcap : b.date.capacity < 2 ^ 31) :
    b.toInts.writeableSize = b.writeableSize := by
  have hend := wf.end_le
  simp only [IntBuffer.writeableSize, Buffer.writeableSize, toInts]
  rw [toInt_of_small (by omega) (by omega)]
  omega

/-- The room before and behind the readable bytes. -/
theorem room_toInts (wf : b.Wf) (hcap : b.date.capacity < 2 ^ 31) :
    toInt (b.toInts.preSize + b.toInts.writeableSize) = (b.preSize + b.writeableSize : Nat) := by
  have hstart := wf.start_le
  have hend := wf.end_le
  rw [writeableSize_toInts wf hcap]
  simp only [IntBuffer.preSize, Buffer.preSize, Buffer.writeableSize, toInts]
  rw [toInt_of_small (by omega) (by omega)]
  omega

theorem readable_toInts : b.toInts.readable = b.readable := by
  simp [IntBuffer.readable, Buffer.readable, Buffer.bytesAt, Buffer.getBuf, Buffer.readableSize,
    toInts]

/-- Each of the three branches of `make_write_space`. -/
theorem makeWriteSpace_toInts (wf : b.Wf) (hcap : b.date.capacity < 2 ^ 31)
    (hlen : b.endIdx + len < 2 ^ 31) :
    b.toInts.makeWriteSpace lib (toInt len) fresh = .ok (b.spaced lib len fresh).toInts := by
  have hstart := wf.start_le
  have hend := wf.end_le
  have htoInt : toInt len = len := toInt_of_small (by omega) (by omega)
  rw [makeWriteSpace, room_toInts wf hcap, writeableSize_toInts wf hcap, htoInt]
  by_cases hbehind : b.writeableSize ≥ len
  · rw [if_pos (Int.ofNat_le.mpr hbehind), spaced, if_pos (.inl hbehind),
      makeWriteSpace_of_room hbehind]
  · rw [if_neg (mt Int.ofNat_le.mp hbehind)]
    by_cases hboth : b.preSize + b.writeableSize ≥ len
    · have hcount : (b.toInts.endIdx - b.toInts.startIdx).toNat = b.endIdx - b.startIdx := by
        simp only [toInts]
        omega
      have hback : toInt (b.toInts.endIdx - b.toInts.startIdx) = (b.endIdx - b.startIdx : Nat) := by
        simp only [toInts]
        rw [toInt_of_small (by omega) (by omega)]
        omega
      have hmove := CharVec.move_eq (v := b.date) (Nat.zero_le b.startIdx)
        (n := b.endIdx - b.startIdx) (by omega)
      rw [if_pos (Int.ofNat_le.mpr hboth), hcount, hback, spaced, if_pos (.inr hboth),
        Buffer.makeWriteSpace, if_neg hbehind, if_pos hboth]
      exact congrArg (fun r => r >>= _) hmove
    · have hsize : toSize (toInt (b.toInts.sizeAll + len)) = b.sizeAll + len := by
        simp only [IntBuffer.sizeAll, Buffer.sizeAll, toInts]
        rw [toInt_of_small (by omega) (by omega), toSize_of_small (by omega) (by omega)]
        omega
      rw [if_neg (mt Int.ofNat_le.mp hboth), hsize, spaced, if_neg (not_or.mpr ⟨hbehind, hboth⟩)]
      rfl

theorem write_toInts (wf : b.Wf) (hcap : b.date.capacity < 2 ^ 31)
    (hlen : b.endIdx + buf.length < 2 ^ 31) :
    b.toInts.write lib buf fresh = .ok (b.writeWith lib buf fresh).toInts := by
  have hroom := le_writeableSize_spaced wf lib buf.length fresh
  have hend := (wf.spaced lib buf.length fresh).end_le
  have hback := endIdx_spaced_le lib b buf.length fresh
  simp only [Buffer.writeableSize] at hroom
  have hinside : (b.spaced lib buf.length fresh).endIdx + buf.length ≤
      (b.spaced lib buf.length fresh).date.capacity := by omega
  have hcopy := CharVec.copyIn_eq hinside
  have hsum : toInt ((b.spaced lib buf.length fresh).endIdx + toInt buf.length) =
      ((b.spaced lib buf.length fresh).endIdx + buf.length : Nat) := by
    rw [toInt_of_small (x := buf.length) (by omega) (by omega),
      toInt_of_small (by omega) (by omega)]
    omega
  rw [write, makeWriteSpace_toInts wf hcap hlen, ok_bind]
  simp only [toInts] at hcopy hsum ⊢
  rw [hcopy, ok_bind, hsum]
  rfl

/-- Taking `n` readable bytes. -/
theorem startIdx_toInts (wf : b.Wf) (hcap : b.date.capacity < 2 ^ 31) (hn : n ≤ b.readableSize) :
    toInt (b.toInts.startIdx + n) = (b.startIdx + n : Nat) := by
  have hstart := wf.start_le
  have hend := wf.end_le
  simp only [Buffer.readableSize] at hn
  simp only [toInts]
  rw [toInt_of_small (by omega) (by omega)]
  omega

end IntBuffer

/-- The buffer after a call, with any library. -/
def Op.after (lib : VectorLib) (b : Buffer) : Op → Buffer
  | .write buf fresh => b.writeWith lib buf fresh
  | .readAll => b.readAll.2
  | .read n | .hasRead n | .readStr n => { b with startIdx := b.startIdx + n }
  | .readInt => { b with startIdx := b.startIdx + 4 }
  | .clear => b.clear

namespace Buffer

variable {lib : VectorLib} {b : Buffer}

theorem Wf.writeWith (wf : b.Wf) (buf : Bytes) (fresh : Nat → UInt8) :
    (b.writeWith lib buf fresh).Wf := by
  have hwf := wf.spaced lib buf.length fresh
  have hroom := le_writeableSize_spaced wf lib buf.length fresh
  have hend := hwf.end_le
  refine ⟨hwf.start_le.trans (Nat.le_add_right _ _), ?_⟩
  simp only [writeableSize, Buffer.writeWith, CharVec.capacity, length_writeAt] at *
  omega

theorem Wf.after (wf : b.Wf) (lib : VectorLib) {op : Op} (legal : op.Legal b) :
    (op.after lib b).Wf := by
  cases op with
  | write buf fresh => exact wf.writeWith buf fresh
  | readAll =>
    simp only [Op.after, Buffer.readAll]
    split
    · exact wf
    · exact ⟨Nat.le_refl _, Nat.zero_le _⟩
  | read n => exact wf.advance legal
  | hasRead n => exact wf.advance legal
  | readStr n => exact wf.advance legal
  | readInt => exact wf.advance legal
  | clear => exact ⟨Nat.le_refl _, Nat.zero_le _⟩

end Buffer

namespace IntBuffer

open Buffer

variable {lib : VectorLib} {b : Buffer}

theorem legal_toInts (wf : b.Wf) (hcap : b.date.capacity < 2 ^ 31) {op : Op} :
    b.toInts.Legal op ↔ op.Legal b := by
  cases op with
  | write buf fresh => exact Iff.rfl
  | readAll => exact Iff.rfl
  | read n => simp [Legal, Op.Legal, readableSize_toInts wf hcap]
  | hasRead n => simp [Legal, Op.Legal, readableSize_toInts wf hcap]
  | readStr n => simp [Legal, Op.Legal, readableSize_toInts wf hcap]
  | readInt =>
    rw [Legal, Op.Legal, readableSize_toInts wf hcap]
    omega
  | clear => exact Iff.rfl

/-- What `has_read`, `read_int` and `read_str` do to the indices. -/
theorem advance_toInts (wf : b.Wf) (hcap : b.date.capacity < 2 ^ 31) {n : Nat}
    (hn : n ≤ b.readableSize) :
    { b.toInts with startIdx := toInt (b.toInts.startIdx + n) } =
      toInts { b with startIdx := b.startIdx + n } := by
  rw [startIdx_toInts wf hcap hn]
  rfl

/-- The bytes that a call loads are readable bytes. -/
theorem loads_toInts (wf : b.Wf) {n : Nat} (hn : n ≤ b.readableSize) :
    b.toInts.date.loads b.toInts.startIdx n = .ok (b.bytesAt b.getBuf n) := by
  have hstart := wf.start_le
  have hend := wf.end_le
  simp only [Buffer.readableSize] at hn
  exact CharVec.loads_eq (v := b.date) (p := b.startIdx) (by omega)

/-- **One call**, of a buffer in order that is small enough: it does not fail, and does what
the call on `Nat` indices does. -/
theorem step_toInts (lib : VectorLib) (wf : b.Wf) (hcap : b.date.capacity < 2 ^ 31) {op : Op}
    (legal : op.Legal b) (hblock : ∀ buf fresh, op = .write buf fresh →
      b.endIdx + buf.length < 2 ^ 31) :
    b.toInts.step lib op = .ok (op.after lib b).toInts := by
  have hsize := readableSize_toInts wf hcap
  cases op with
  | write buf fresh => exact write_toInts wf hcap (hblock buf fresh rfl)
  | readAll =>
    simp only [IntBuffer.step, IntBuffer.readAll, hsize, Op.after, Buffer.readAll]
    by_cases hnone : b.readableSize ≤ 0
    · rw [if_pos (by omega), if_pos hnone]
    · rw [if_neg (by omega), if_neg hnone]
      rfl
  | read n =>
    have hn : n ≤ b.readableSize := legal
    simp only [IntBuffer.step, IntBuffer.read, hsize, advance_toInts wf hcap hn, Op.after]
    by_cases hnone : b.readableSize ≤ 0
    · obtain rfl : n = 0 := by omega
      rw [if_pos (by omega)]
      rfl
    · rw [if_neg (by omega)]
  | hasRead n =>
    have hn : n ≤ b.readableSize := legal
    have hstart := wf.start_le
    simp only [IntBuffer.step, IntBuffer.hasRead, startIdx_toInts wf hcap hn, Op.after]
    simp only [Buffer.readableSize] at hn
    rw [if_pos (by simp only [toInts]; omega)]
    rfl
  | readStr n =>
    have hn : n ≤ b.readableSize := legal
    simp only [IntBuffer.step, IntBuffer.readStr, hsize, ge_iff_le, Int.ofNat_le, if_pos hn,
      Int.toNat_natCast, loads_toInts wf hn, ok_bind, advance_toInts wf hcap hn, Op.after]
    rfl
  | readInt =>
    have hn : 4 ≤ b.readableSize := legal
    have hadvance := advance_toInts wf hcap hn
    simp only [Nat.cast_ofNat] at hadvance
    simp only [IntBuffer.step, IntBuffer.readInt, hsize, loads_toInts wf hn, ok_bind, hadvance,
      Op.after]
    rw [if_pos (by omega)]
    rfl
  | clear => rfl

/-- With `libstdcxx`, these are the calls of `MixServer.Net.Buffer`. -/
theorem call_eq_after {op : Op} (wf : b.Wf) (legal : op.Legal b) :
    op.call b = .ok (op.after .libstdcxx b) := by
  have hstart := wf.start_le
  cases op with
  | write buf fresh =>
    simp only [Op.call, Op.after, Buffer.writeWith, spaced_libstdcxx]
    rfl
  | readAll => rfl
  | read n =>
    have hn : n ≤ b.readableSize := legal
    simp only [Op.call, Op.after, Buffer.read]
    split
    · obtain rfl : n = 0 := by omega
      rfl
    · rfl
  | hasRead n =>
    have hn : n ≤ b.readableSize := legal
    simp only [Buffer.readableSize] at hn
    simp only [Op.call, Op.after, Buffer.hasRead]
    rw [if_pos (by omega)]
  | readStr n =>
    have hn : n ≤ b.readableSize := legal
    simp only [Op.call, Op.after, Buffer.readStr, ge_iff_le, if_pos hn]
    rfl
  | readInt =>
    have hn : 4 ≤ b.readableSize := legal
    simp only [Op.call, Op.after, Buffer.readInt, ge_iff_le, if_pos hn]
    rfl
  | clear => rfl

/-- What a call on the buffer of `MixServer.Net.Buffer` does, one with `int` indices does. -/
theorem step_ofBuffer (wf : b.Wf) (hcap : b.date.capacity < 2 ^ 31) {op : Op}
    (legal : op.Legal b) (hblock : ∀ buf fresh, op = .write buf fresh →
      b.endIdx + buf.length < 2 ^ 31) :
    ∃ b', op.call b = .ok b' ∧ b.toInts.step .libstdcxx op = .ok b'.toInts :=
  ⟨_, call_eq_after wf legal, step_toInts _ wf hcap legal hblock⟩

/-! ### Runs -/

/-- The caller keeps its promise, and all sizes are small. -/
structure Called (lib : VectorLib) (b : IntBuffer) (op : Op) : Prop where
  legal : b.Legal op
  small : b.Small lib op

/-- A buffer in order, of a small capacity. -/
def Fine (s : IntBuffer) : Prop :=
  ∃ b : Buffer, s = b.toInts ∧ b.Wf ∧ b.date.capacity < 2 ^ 31

theorem Fine.inRange {s : IntBuffer} (h : Fine s) : s.InRange := by
  obtain ⟨b, rfl, wf, -⟩ := h
  exact inRange_toInts wf

theorem Fine.step {s : IntBuffer} {op : Op} (h : Fine s) (hcalled : Called lib s op) :
    Ensures (s.step lib op) Fine fun _ => False := by
  obtain ⟨b, rfl, wf, hcap⟩ := h
  have legal := (legal_toInts wf hcap).mp hcalled.legal
  have hstep := step_toInts lib wf hcap legal fun buf fresh hop => by
    have hblock := hcalled.small.block buf fresh hop
    simp only [toInts] at hblock
    omega
  have hcap' := hcalled.small.capacity _ hstep
  rw [hstep]
  exact ⟨_, rfl, wf.after lib legal, hcap'⟩

/-- What a `write` relies on: `make_write_space` makes room, keeps the number of readable bytes,
and keeps the bytes themselves where it moves them or leaves them. -/
def MakesSpace (lib : VectorLib) (s : IntBuffer) (op : Op) : Prop :=
  ∀ buf fresh, op = .write buf fresh →
    ∃ s', s.makeWriteSpace lib (toInt buf.length) fresh = .ok s' ∧ s'.InRange ∧
      buf.length ≤ s'.writeableSize ∧ s'.readableSize = s.readableSize ∧
      (toInt (s.preSize + s.writeableSize) ≥ buf.length → s'.readable = s.readable)

theorem Fine.makesSpace {s : IntBuffer} {op : Op} (h : Fine s) (hcalled : Called lib s op) :
    MakesSpace lib s op := by
  rintro buf fresh rfl
  obtain ⟨b, rfl, wf, hcap⟩ := h
  have hblock : b.endIdx + buf.length < 2 ^ 31 := by
    have hsmall := hcalled.small.block buf fresh rfl
    simp only [toInts] at hsmall
    omega
  have hwf : (b.spaced lib buf.length fresh).Wf := wf.spaced _ _ _
  have hcap' : (b.spaced lib buf.length fresh).date.capacity < 2 ^ 31 := by
    have hwritten := hcalled.small.capacity _ (write_toInts wf hcap hblock)
    simpa [toInts, Buffer.writeWith, CharVec.capacity] using hwritten
  refine ⟨_, makeWriteSpace_toInts wf hcap hblock, inRange_toInts hwf, ?_, ?_, ?_⟩
  · rw [writeableSize_toInts hwf hcap']
    exact Int.ofNat_le.mpr (le_writeableSize_spaced wf _ _ _)
  · rw [readableSize_toInts hwf hcap', readableSize_toInts wf hcap, readableSize_spaced]
  · rw [room_toInts wf hcap, readable_toInts, readable_toInts]
    intro hroom
    exact readable_spaced wf (.inr (Int.ofNat_le.mp hroom))

/-- **The indices never leave the allocation**: every sequence of calls that take no more than is
readable succeeds, without a byte outside the allocation being read or written, and leaves the
indices in range; and in each `write` of it, `make_write_space` does what it is for. -/
theorem indices_inside (lib : VectorLib) (hnew : (new lib).date.capacity < 2 ^ 31) {ops : List Op}
    (hcalled : Every (step lib) (Called lib) (new lib) ops) :
    (∀ pre, pre <+: ops → Ensures (exec (step lib) (new lib) pre) InRange fun _ => False) ∧
      Every (step lib) (MakesSpace lib) (new lib) ops := by
  have hinit : Fine (new lib) :=
    ⟨⟨_, 0, 0⟩, rfl, ⟨Nat.le_refl _, Nat.zero_le _⟩, hnew⟩
  constructor
  · intro pre hpre
    exact (exec_ensures_of_every (fun _ _ h hC => h.step hC) hinit
      (hcalled.of_prefix hpre)).mono (fun _ h => h.inRange) fun _ => id
  · exact hcalled.imp (fun _ _ h hC => (h.step hC).mono (fun _ => id) fun _ _ => trivial)
      (fun _ _ h hC => h.makesSpace hC) hinit

theorem called_toInts (lib : VectorLib) (wf : b.Wf) (hcap : b.date.capacity < 2 ^ 31) {op : Op}
    (legal : op.Legal b) (hblock : ∀ buf fresh, op = .write buf fresh →
      b.endIdx + buf.length < 2 ^ 31) (hafter : (op.after lib b).date.capacity < 2 ^ 31) :
    Called lib b.toInts op := by
  refine ⟨(legal_toInts wf hcap).mpr legal, ?_, ?_⟩
  · intro buf fresh hop
    have hsum := hblock buf fresh hop
    simp only [toInts]
    omega
  · intro b' hb'
    obtain rfl := Except.ok.inj ((step_toInts lib wf hcap legal hblock).symm.trans hb')
    exact hafter

theorem new_libstdcxx : new .libstdcxx = Buffer.new.toInts := by
  simp only [new, Buffer.new, toInts, VectorLib.libstdcxx, Int.natCast_zero]

end IntBuffer

/-! ### Runs that write little -/

/-- How many bytes are readable after a call of which `n` were before, if it takes no more. -/
def Op.count (n : Nat) : Op → Option Nat
  | .write buf _ => some (n + buf.length)
  | .readAll | .clear => some 0
  | .read k | .hasRead k | .readStr k => if k ≤ n then some (n - k) else none
  | .readInt => if 4 ≤ n then some (n - 4) else none

/-- How many bytes a call writes. -/
def Op.written : Op → Nat
  | .write buf _ => buf.length
  | _ => 0

/-- No call takes more than is readable, which is `n` bytes at first, and with the `total` before
them the calls write less than 512 MB. -/
def WriteLittle : Nat → Nat → List Op → Prop
  | _, _, [] => True
  | n, total, op :: ops =>
      total + op.written < 2 ^ 29 ∧
        ∃ n' ∈ op.count n, WriteLittle n' (total + op.written) ops

namespace Buffer

variable {b : Buffer} {n total : Nat}

/-- Of the buffer, `n` bytes are readable, and its sizes are no larger than what `total` bytes
need. -/
structure Bounded (b : Buffer) (n total : Nat) : Prop where
  wf : b.Wf
  readable : b.readableSize = n
  end_le : b.endIdx ≤ total
  size_le : b.date.size ≤ max BUFFER_SIZE total
  capacity_le : b.date.capacity ≤ 2 * max BUFFER_SIZE total

theorem bounded_new : new.Bounded 0 0 where
  wf := wf_new
  readable := rfl
  end_le := Nat.le_refl _
  size_le := by rw [size_new]; exact Nat.le_max_left _ _
  capacity_le := by
    rw [capacity_new]
    omega

theorem Bounded.legal (h : b.Bounded n total) {op : Op} {n' : Nat} (hcount : n' ∈ op.count n) :
    op.Legal b := by
  cases op with
  | write buf fresh => trivial
  | readAll => trivial
  | clear => trivial
  | read k | hasRead k | readStr k =>
    simp only [Op.count, Option.mem_def, Option.ite_none_right_eq_some] at hcount
    exact hcount.1.trans h.readable.ge
  | readInt =>
    simp only [Op.count, Option.mem_def, Option.ite_none_right_eq_some] at hcount
    exact hcount.1.trans h.readable.ge

theorem Bounded.advance (h : b.Bounded n total) {k : Nat} (hk : k ≤ n) :
    Bounded { b with startIdx := b.startIdx + k } (n - k) total where
  wf := h.wf.advance (hk.trans h.readable.ge)
  readable := by
    rw [← h.readable]
    simp only [readableSize]
    omega
  end_le := h.end_le
  size_le := h.size_le
  capacity_le := h.capacity_le

theorem Bounded.clear (h : b.Bounded n total) : b.clear.Bounded 0 total where
  wf := wf_clear b
  readable := rfl
  end_le := Nat.zero_le _
  size_le := h.size_le
  capacity_le := h.capacity_le

/-- A reallocation asks for what is written, and gets at most twice what is there. -/
theorem Bounded.makeWriteSpace (h : b.Bounded n total) (len : Nat) (fresh : Nat → UInt8) :
    (b.makeWriteSpace len fresh).endIdx ≤ total ∧
      (b.makeWriteSpace len fresh).date.size ≤ max BUFFER_SIZE (total + len) ∧
      (b.makeWriteSpace len fresh).date.capacity ≤ 2 * max BUFFER_SIZE (total + len) := by
  have hend := h.end_le
  have hsize := h.size_le
  have hcap := h.capacity_le
  by_cases hresizes : b.Resizes len
  · have hgrow : b.date.capacity < b.sizeAll + len := hresizes.capacity_lt h.wf
    have hcapacity := CharVec.capacity_resize fresh hgrow
    have hle := b.date.size_le
    rw [makeWriteSpace_of_resizes hresizes]
    dsimp only
    rw [CharVec.size_resize, hcapacity]
    simp only [sizeAll] at *
    omega
  · unfold Buffer.makeWriteSpace
    split
    · omega
    · split
      · simp only [CharVec.capacity, length_copyWithin] at *
        omega
      · exact absurd ⟨‹_›, ‹_›⟩ hresizes

theorem Bounded.write (h : b.Bounded n total) (buf : Bytes) (fresh : Nat → UInt8) :
    (b.writeWith .libstdcxx buf fresh).Bounded (n + buf.length) (total + buf.length) := by
  have hwf : (b.writeWith .libstdcxx buf fresh).Wf := h.wf.writeWith buf fresh
  obtain ⟨hend, hsize, hcap⟩ := h.makeWriteSpace buf.length fresh
  have hread := readableSize_makeWriteSpace b buf.length fresh
  have hstart := (makeWriteSpace_wf h.wf buf.length fresh).start_le
  rw [h.readable] at hread
  refine ⟨hwf, ?_, ?_, ?_, ?_⟩ <;>
    simp only [writeWith, spaced_libstdcxx, readableSize, CharVec.capacity, length_writeAt] at *
  · omega
  · omega
  · exact hsize
  · exact hcap

theorem Bounded.after (h : b.Bounded n total) {op : Op} {n' : Nat} (hcount : n' ∈ op.count n) :
    (op.after .libstdcxx b).Bounded n' (total + op.written) := by
  cases op with
  | write buf fresh =>
    obtain rfl := Option.some.inj hcount
    exact h.write buf fresh
  | readAll =>
    obtain rfl := Option.some.inj hcount
    simp only [Op.after, readAll]
    split
    · rename_i hnone
      exact { h with readable := Nat.le_zero.mp hnone }
    · exact h.clear
  | clear =>
    obtain rfl := Option.some.inj hcount
    exact h.clear
  | read k | hasRead k | readStr k | readInt =>
    simp only [Op.count, Option.mem_def, Option.ite_none_right_eq_some, Option.some.injEq] at hcount
    obtain ⟨hk, rfl⟩ := hcount
    exact h.advance hk

/-- **Calls that write less than 512 MB in all**, and take no more than is readable, are as they
should be. -/
theorem Bounded.called (h : b.Bounded n total) (htotal : total < 2 ^ 29) {ops : List Op}
    (hlittle : WriteLittle n total ops) :
    Every (IntBuffer.step .libstdcxx) (IntBuffer.Called .libstdcxx) b.toInts ops := by
  have hsmall : ∀ {b : Buffer} {n total : Nat}, b.Bounded n total → total < 2 ^ 29 →
      b.date.capacity < 2 ^ 31 := by
    intro b n total h htotal
    have hcap := h.capacity_le
    simp only [BUFFER_SIZE] at hcap
    omega
  induction ops generalizing b n total with
  | nil => trivial
  | cons op ops ih =>
    obtain ⟨hwritten, n', hcount, hrest⟩ := hlittle
    have hafter := h.after hcount
    have hlegal := h.legal hcount
    have hblock : ∀ buf fresh, op = .write buf fresh → b.endIdx + buf.length < 2 ^ 31 := by
      rintro buf fresh rfl
      have hend := h.end_le
      simp only [Op.written] at hwritten
      omega
    rw [every_cons_ok (IntBuffer.step_toInts _ h.wf (hsmall h htotal) hlegal hblock)]
    exact ⟨IntBuffer.called_toInts _ h.wf (hsmall h htotal) hlegal hblock
      (hsmall hafter hwritten), ih hafter hwritten hrest⟩

end Buffer

namespace IntBuffer

/-- A full buffer is read, compacted for the next block, and grows for the one after it. -/
def compactedAndGrown : List Op :=
  [.write (List.replicate 4096 1) fun _ => 0, .read 4000, .write (List.replicate 1000 2) fun _ => 0,
    .write (List.replicate 5000 3) fun _ => 0, .readInt, .readAll]

theorem writeLittle_compactedAndGrown : WriteLittle 0 0 compactedAndGrown := by
  unfold compactedAndGrown
  simp only [WriteLittle, Op.written, Op.count, List.length_replicate, Option.mem_def,
    Option.some.injEq, exists_eq_left', Option.ite_none_right_eq_some, and_assoc,
    exists_and_left]
  decide

theorem indices_inside_compactedAndGrown :
    (∀ pre, pre <+: compactedAndGrown →
      Ensures (exec (step .libstdcxx) (new .libstdcxx) pre) InRange fun _ => False) ∧
      Every (step .libstdcxx) (MakesSpace .libstdcxx) (new .libstdcxx) compactedAndGrown := by
  have hrun := Buffer.bounded_new.called (by decide) writeLittle_compactedAndGrown
  rw [← new_libstdcxx] at hrun
  have hnew : (new .libstdcxx).date.capacity < 2 ^ 31 := by
    rw [new_libstdcxx]
    change Buffer.new.date.capacity < 2 ^ 31
    rw [Buffer.capacity_new]
    decide
  exact indices_inside .libstdcxx hnew hrun

end IntBuffer

end MixServer.Net
