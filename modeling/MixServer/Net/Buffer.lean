import MixServer.Lib.Run
import MixServer.Net.ByteQueue

/-!
`Buffer` over its real memory (`include/buffer.hpp`, `net/buffer.cpp`).

The buffer keeps its bytes in a `std::vector<char>` and computes the room left
from `capacity()`, while `resize` carries over only the first `size()` bytes to
a new allocation. `CharVec` models exactly that difference: the whole
allocation, of which `size` bytes are elements.

* `makeWriteSpace_*` are the specification lemmas of the three branches of
  `make_write_space`.
* `step_exact` says when one call keeps the readable bytes right, and
  `buffer_fifo_iff` lifts it to every sequence of calls: the buffer is the queue
  `History` describes iff no call reallocates while unread bytes lie beyond
  `size()` (or those bytes are zero).
-/

namespace MixServer.Net

open Lib

/-! ### Copying inside an allocation -/

/-- `std::copy(buf, buf + len, begin() + pos)`. -/
def writeAt (mem : Bytes) (pos : Nat) : Bytes → Bytes
  | [] => mem
  | b :: bs => writeAt (mem.set pos b) (pos + 1) bs

/-- `std::copy(begin() + src, begin() + src + n, begin() + dst)`, front to back
within one allocation. -/
def copyWithin (mem : Bytes) (src dst : Nat) : Nat → Bytes
  | 0 => mem
  | n + 1 => copyWithin (mem.set dst (mem.getD src 0)) (src + 1) (dst + 1) n

@[simp] theorem length_writeAt (mem bs : Bytes) (pos : Nat) :
    (writeAt mem pos bs).length = mem.length := by
  induction bs generalizing mem pos with
  | nil => rfl
  | cons b bs ih => simp [writeAt, ih]

@[simp] theorem length_copyWithin (mem : Bytes) (src dst n : Nat) :
    (copyWithin mem src dst n).length = mem.length := by
  induction n generalizing mem src dst with
  | zero => rfl
  | succ n ih => simp [copyWithin, ih]

theorem getElem?_writeAt {mem bs : Bytes} {pos : Nat} (room : pos + bs.length ≤ mem.length)
    (i : Nat) : (writeAt mem pos bs)[i]? =
      if pos ≤ i ∧ i < pos + bs.length then bs[i - pos]? else mem[i]? := by
  induction bs generalizing mem pos with
  | nil => rw [writeAt, if_neg (by simp only [List.length_nil]; omega)]
  | cons b bs ih =>
    simp only [List.length_cons] at room ⊢
    rw [writeAt, ih (by simp only [List.length_set]; omega)]
    by_cases head : i = pos
    · subst head
      rw [if_neg (by omega), if_pos (by omega), List.getElem?_set_self (by omega), Nat.sub_self]
      rfl
    · rw [List.getElem?_set_ne (Ne.symm head)]
      by_cases inside : pos + 1 ≤ i ∧ i < pos + 1 + bs.length
      · obtain ⟨k, rfl⟩ : ∃ k, i = pos + 1 + k := ⟨i - (pos + 1), by omega⟩
        rw [if_pos inside, if_pos (by omega), show pos + 1 + k - pos = k + 1 by omega,
          show pos + 1 + k - (pos + 1) = k by omega, List.getElem?_cons_succ]
      · rw [if_neg inside, if_neg (by omega)]

/-- Copying front to back towards the front never reads a byte it has already
overwritten. -/
theorem getElem?_copyWithin {mem : Bytes} {src dst n : Nat} (back : dst ≤ src)
    (room : src + n ≤ mem.length) (i : Nat) : (copyWithin mem src dst n)[i]? =
      if dst ≤ i ∧ i < dst + n then mem[src + (i - dst)]? else mem[i]? := by
  induction n generalizing mem src dst with
  | zero => rw [copyWithin, if_neg (by omega)]
  | succ n ih =>
    rw [copyWithin, ih (by omega) (by simp only [List.length_set]; omega)]
    have hsrc : mem[src]? = some (mem.getD src 0) := by
      rw [List.getD_eq_getElem?_getD, List.getElem?_eq_getElem (by omega)]
      rfl
    by_cases head : i = dst
    · subst head
      rw [if_neg (by omega), if_pos (by omega), List.getElem?_set_self (by omega), Nat.sub_self,
        Nat.add_zero, hsrc]
    · by_cases inside : dst + 1 ≤ i ∧ i < dst + 1 + n
      · rw [if_pos inside, if_pos (by omega), List.getElem?_set_ne (by omega),
          show src + 1 + (i - (dst + 1)) = src + (i - dst) by omega]
      · rw [if_neg inside, if_neg (by omega), List.getElem?_set_ne (Ne.symm head)]

/-! ### The vector -/

/-- `std::vector<char>`: the allocation, of which the first `size` bytes are
elements. -/
structure CharVec where
  mem : Bytes
  size : Nat
  size_le : size ≤ mem.length

/-- `capacity()`. -/
def CharVec.capacity (v : CharVec) : Nat := v.mem.length

/-- A default-constructed vector: no allocation. -/
def CharVec.empty : CharVec := ⟨[], 0, le_rfl⟩

/-- `resize(n)`. Within the allocation the new elements are zero-filled; past it
the elements move to a new one of `size + max(size, n - size)` bytes, the new
elements are zero-filled, and the spare bytes behind them are whatever the
allocator returns (`fresh`). -/
def CharVec.resize (v : CharVec) (n : Nat) (fresh : Nat → UInt8) : CharVec :=
  if h : n ≤ v.capacity then
    { mem := writeAt v.mem v.size (List.replicate (n - v.size) 0)
      size := n
      size_le := by simpa [CharVec.capacity] using h }
  else
    { mem := v.mem.take v.size ++ List.replicate (n - v.size) 0 ++
        (List.range (v.size + max v.size (n - v.size) - n)).map fun i => fresh (n + i)
      size := n
      size_le := by
        have hsize := v.size_le
        simp only [CharVec.capacity] at h
        simp only [List.length_append, List.length_take, List.length_replicate, List.length_map,
          List.length_range]
        omega }

@[simp] theorem CharVec.size_resize (v : CharVec) (n : Nat) (fresh : Nat → UInt8) :
    (v.resize n fresh).size = n := by
  unfold resize
  split <;> rfl

theorem CharVec.le_capacity_resize (v : CharVec) (n : Nat) (fresh : Nat → UInt8) :
    n ≤ (v.resize n fresh).capacity := by
  have h := (v.resize n fresh).size_le
  rwa [size_resize] at h

theorem CharVec.capacity_resize {v : CharVec} {n : Nat} (fresh : Nat → UInt8)
    (grow : v.capacity < n) :
    (v.resize n fresh).capacity = v.size + max v.size (n - v.size) := by
  have hsize := v.size_le
  unfold resize
  rw [dif_neg (Nat.not_le.mpr grow)]
  simp only [CharVec.capacity] at grow
  simp only [CharVec.capacity, List.length_append, List.length_take, List.length_replicate,
    List.length_map, List.length_range]
  omega

/-- `resize` keeps the elements, and nothing of what lay behind them. -/
theorem CharVec.getElem?_resize {v : CharVec} {n : Nat} (fresh : Nat → UInt8) {i : Nat}
    (hi : i < n) :
    (v.resize n fresh).mem[i]? = if i < v.size then v.mem[i]? else some 0 := by
  have hsize := v.size_le
  by_cases inside : n ≤ v.capacity
  · rw [resize, dif_pos inside]
    simp only [CharVec.capacity] at inside ⊢
    rw [getElem?_writeAt (by rw [List.length_replicate]; omega), List.length_replicate]
    by_cases element : i < v.size
    · rw [if_neg (by omega), if_pos element]
    · rw [if_pos (by omega), if_neg element, List.getElem?_replicate_of_lt (by omega)]
  · rw [resize, dif_neg inside]
    dsimp only
    rw [List.getElem?_append_left (by
      simp only [List.length_append, List.length_take, List.length_replicate]; omega)]
    by_cases element : i < v.size
    · rw [if_pos element, List.getElem?_append_left (by simp only [List.length_take]; omega),
        List.getElem?_take_of_lt element]
    · rw [if_neg element, List.getElem?_append_right (by simp only [List.length_take]; omega),
        List.getElem?_replicate_of_lt (by simp only [List.length_take]; omega)]

/-! ### The buffer -/

/-- `class Buffer`: the vector and the bounds of the readable bytes. -/
structure Buffer where
  date : CharVec
  startIdx : Nat
  endIdx : Nat

namespace Buffer

/-- `Buffer::BUFFER_SIZE`. -/
def BUFFER_SIZE : Nat := 4096

/-- `Buffer::Buffer()`. -/
def new : Buffer := ⟨CharVec.empty.resize BUFFER_SIZE fun _ => 0, 0, 0⟩

def sizeAll (b : Buffer) : Nat := b.endIdx

def clear (b : Buffer) : Buffer := { b with startIdx := 0, endIdx := 0 }

def preSize (b : Buffer) : Nat := b.startIdx

def readableSize (b : Buffer) : Nat := b.endIdx - b.startIdx

/-- The room behind the readable bytes, counted from `capacity()`. -/
def writeableSize (b : Buffer) : Nat := b.date.capacity - b.endIdx

/-- `begin() + start_idx`, as an index into the allocation. -/
def getBuf (b : Buffer) : Nat := b.startIdx

/-- The `n` bytes at index `p` of the allocation. -/
def bytesAt (b : Buffer) (p n : Nat) : Bytes := (b.date.mem.drop p).take n

/-- The readable bytes `date[start_idx..end_idx)`. -/
def readable (b : Buffer) : Bytes := b.bytesAt b.getBuf b.readableSize

/-- `make_write_space(len)`. `fresh` is what a new allocation holds. -/
def makeWriteSpace (b : Buffer) (len : Nat) (fresh : Nat → UInt8) : Buffer :=
  if b.writeableSize ≥ len then b
  else if b.preSize + b.writeableSize ≥ len then
    { date :=
        { mem := copyWithin b.date.mem b.startIdx 0 (b.endIdx - b.startIdx)
          size := b.date.size
          size_le := by simpa using b.date.size_le }
      startIdx := 0
      endIdx := b.endIdx - b.startIdx }
  else { b with date := b.date.resize (b.sizeAll + len) fresh }

/-- `write(buf, len)`. -/
def write (b : Buffer) (buf : Bytes) (fresh : Nat → UInt8) : Buffer :=
  let b' := b.makeWriteSpace buf.length fresh
  { date :=
      { mem := writeAt b'.date.mem b'.endIdx buf
        size := b'.date.size
        size_le := by simpa using b'.date.size_le }
    startIdx := b'.startIdx
    endIdx := b'.endIdx + buf.length }

/-- `read()`: the pointer to the readable bytes (`none` for `NULL`). -/
def readAll (b : Buffer) : Option Nat × Buffer :=
  if b.readableSize ≤ 0 then (none, b) else (some b.getBuf, b.clear)

/-- `read(n)`. -/
def read (b : Buffer) (n : Nat) : Option Nat × Buffer :=
  if b.readableSize ≤ 0 then (none, b)
  else (some b.getBuf, { b with startIdx := b.startIdx + n })

/-- The `assert`s of the buffer. -/
inductive Abort where
  | hasRead
  | readInt
  | readStr
deriving DecidableEq, Repr

/-- `has_read(n)`. -/
def hasRead (b : Buffer) (n : Nat) : Except Abort Buffer :=
  if b.startIdx + n ≤ b.endIdx then .ok { b with startIdx := b.startIdx + n }
  else .error .hasRead

/-- `read_int()`. -/
def readInt (b : Buffer) : Except Abort (Int × Buffer) :=
  if b.readableSize ≥ 4 then
    .ok (Net.readInt (b.bytesAt b.getBuf 4), { b with startIdx := b.startIdx + 4 })
  else .error .readInt

/-- `read_str(_size)`. -/
def readStr (b : Buffer) (size : Nat) : Except Abort (Bytes × Buffer) :=
  if b.readableSize ≥ size then
    .ok (b.bytesAt b.getBuf size, { b with startIdx := b.startIdx + size })
  else .error .readStr

/-! ### The bounds are always in order -/

/-- The readable bytes lie inside the allocation. -/
structure Wf (b : Buffer) : Prop where
  start_le : b.startIdx ≤ b.endIdx
  end_le : b.endIdx ≤ b.date.capacity

theorem wf_new : new.Wf :=
  ⟨le_rfl, Nat.zero_le _⟩

theorem capacity_new : new.date.capacity = BUFFER_SIZE :=
  CharVec.capacity_resize _ (by decide)

theorem size_new : new.date.size = BUFFER_SIZE := by simp [new]

theorem getElem?_readable (b : Buffer) (i : Nat) :
    b.readable[i]? = if i < b.readableSize then b.date.mem[b.startIdx + i]? else none := by
  simp only [readable, bytesAt, getBuf]
  by_cases inside : i < b.readableSize
  · rw [if_pos inside, List.getElem?_take_of_lt inside, List.getElem?_drop]
  · rw [if_neg inside, List.getElem?_eq_none (by simp only [List.length_take]; omega)]

theorem length_readable {b : Buffer} (wf : b.Wf) : b.readable.length = b.readableSize := by
  have := wf.start_le
  have := wf.end_le
  simp only [readable, bytesAt, getBuf, readableSize, CharVec.capacity] at *
  simp only [List.length_take, List.length_drop]
  omega

/-- What is left behind the first `n` readable bytes. -/
theorem readable_advance (b : Buffer) (n : Nat) :
    Buffer.readable { b with startIdx := b.startIdx + n } = b.readable.drop n := by
  simp only [readable, bytesAt, getBuf, readableSize]
  rw [List.drop_take, List.drop_drop]
  congr 1
  omega

theorem Wf.advance {b : Buffer} (wf : b.Wf) {n : Nat} (hn : n ≤ b.readableSize) :
    Wf { b with startIdx := b.startIdx + n } := by
  have hstart := wf.start_le
  simp only [readableSize] at hn
  refine ⟨?_, wf.end_le⟩
  change b.startIdx + n ≤ b.endIdx
  omega

theorem wf_clear (b : Buffer) : b.clear.Wf := ⟨Nat.le_refl _, Nat.zero_le _⟩

theorem readable_clear (b : Buffer) : b.clear.readable = [] := by
  simp [readable, bytesAt, readableSize, clear]

/-! ### `make_write_space` and `write` -/

/-- Neither the room behind the readable bytes nor the room before and behind
them is enough for `len` bytes: `make_write_space` calls `resize`. -/
def Resizes (b : Buffer) (len : Nat) : Prop :=
  ¬ b.writeableSize ≥ len ∧ ¬ b.preSize + b.writeableSize ≥ len

/-- Every unread byte that is no element of the vector is zero. -/
def ZeroPastSize (b : Buffer) : Prop :=
  ∀ i, b.startIdx ≤ i → b.date.size ≤ i → i < b.endIdx → b.date.mem[i]? = some 0

theorem Resizes.capacity_lt {b : Buffer} {len : Nat} (wf : b.Wf) (h : b.Resizes len) :
    b.date.capacity < b.sizeAll + len := by
  have := wf.end_le
  have h1 := h.1
  simp only [writeableSize, sizeAll] at *
  omega

theorem makeWriteSpace_of_room {b : Buffer} {len : Nat} (h : b.writeableSize ≥ len)
    (fresh : Nat → UInt8) : b.makeWriteSpace len fresh = b := by
  unfold makeWriteSpace
  rw [if_pos h]

theorem makeWriteSpace_of_resizes {b : Buffer} {len : Nat} (h : b.Resizes len)
    (fresh : Nat → UInt8) : b.makeWriteSpace len fresh =
      { b with date := b.date.resize (b.sizeAll + len) fresh } := by
  unfold makeWriteSpace
  rw [if_neg h.1, if_neg h.2]

theorem makeWriteSpace_wf {b : Buffer} (wf : b.Wf) (len : Nat) (fresh : Nat → UInt8) :
    (b.makeWriteSpace len fresh).Wf := by
  have hend := wf.end_le
  unfold makeWriteSpace
  split
  · exact wf
  · split
    · refine ⟨Nat.zero_le _, ?_⟩
      simp only [CharVec.capacity, length_copyWithin] at hend ⊢
      omega
    · refine ⟨wf.start_le, ?_⟩
      have := b.date.le_capacity_resize (b.sizeAll + len) fresh
      exact (Nat.le_add_right b.endIdx len).trans this

/-- Afterwards there is room for `len` bytes. -/
theorem le_writeableSize_makeWriteSpace {b : Buffer} (wf : b.Wf) (len : Nat)
    (fresh : Nat → UInt8) : len ≤ (b.makeWriteSpace len fresh).writeableSize := by
  have hstart := wf.start_le
  have hend := wf.end_le
  unfold makeWriteSpace
  split
  · assumption
  · split
    · rename_i h
      simp only [preSize, writeableSize, CharVec.capacity, length_copyWithin] at *
      omega
    · have := b.date.le_capacity_resize (b.sizeAll + len) fresh
      simp only [sizeAll, writeableSize] at *
      omega

theorem readableSize_makeWriteSpace (b : Buffer) (len : Nat) (fresh : Nat → UInt8) :
    (b.makeWriteSpace len fresh).readableSize = b.readableSize := by
  unfold makeWriteSpace
  split
  · rfl
  · split
    · simp [readableSize]
    · rfl

/-- With enough room in the allocation no readable byte changes. -/
theorem readable_makeWriteSpace {b : Buffer} {len : Nat} (wf : b.Wf) (h : ¬ b.Resizes len)
    (fresh : Nat → UInt8) : (b.makeWriteSpace len fresh).readable = b.readable := by
  have hstart := wf.start_le
  have hend := wf.end_le
  apply List.ext_getElem?
  intro i
  rw [getElem?_readable, getElem?_readable, readableSize_makeWriteSpace]
  by_cases inside : i < b.readableSize
  · rw [if_pos inside, if_pos inside]
    unfold makeWriteSpace
    split
    · rfl
    · split
      · simp only [readableSize, CharVec.capacity] at *
        rw [getElem?_copyWithin (Nat.zero_le _) (by omega), if_pos (by omega)]
        simp
      · exact absurd ⟨‹_›, ‹_›⟩ h
  · rw [if_neg inside, if_neg inside]

/-- A `resize` that leaves the readable bytes inside keeps them iff those past `size()` are
zero. -/
theorem readable_resize_iff {b : Buffer} (wf : b.Wf) {n : Nat} (hn : b.endIdx ≤ n)
    (fresh : Nat → UInt8) :
    Buffer.readable { b with date := b.date.resize n fresh } = b.readable ↔ b.ZeroPastSize := by
  have hstart := wf.start_le
  have hmem : ∀ i, i < b.endIdx → (b.date.resize n fresh).mem[i]? =
      if i < b.date.size then b.date.mem[i]? else some 0 :=
    fun i hi => CharVec.getElem?_resize fresh (hi.trans_le hn)
  have hlook : ∀ i, (Buffer.readable { b with date := b.date.resize n fresh })[i]? =
      if i < b.readableSize then (b.date.resize n fresh).mem[b.startIdx + i]? else none :=
    getElem?_readable _
  constructor
  · intro heq i hfrom hsize hto
    have hi := congrArg (fun q => q[i - b.startIdx]?) heq
    have hinside : i - b.startIdx < b.readableSize := by simp only [readableSize]; omega
    rw [hlook, getElem?_readable, if_pos hinside, if_pos hinside,
      show b.startIdx + (i - b.startIdx) = i by omega, hmem i hto, if_neg (by omega)] at hi
    exact hi.symm
  · intro hzero
    apply List.ext_getElem?
    intro i
    rw [hlook, getElem?_readable]
    by_cases inside : i < b.readableSize
    · have hto : b.startIdx + i < b.endIdx := by simp only [readableSize] at inside; omega
      rw [if_pos inside, if_pos inside, hmem _ hto]
      by_cases element : b.startIdx + i < b.date.size
      · rw [if_pos element]
      · rw [if_neg element, hzero _ (by omega) (by omega) hto]
    · rw [if_neg inside, if_neg inside]

/-- A reallocation keeps the readable bytes iff those past `size()` are zero. -/
theorem readable_makeWriteSpace_iff {b : Buffer} {len : Nat} (wf : b.Wf) (h : b.Resizes len)
    (fresh : Nat → UInt8) :
    (b.makeWriteSpace len fresh).readable = b.readable ↔ b.ZeroPastSize := by
  rw [makeWriteSpace_of_resizes h]
  exact readable_resize_iff wf (Nat.le_add_right _ _) fresh

@[simp] theorem capacity_write (b : Buffer) (buf : Bytes) (fresh : Nat → UInt8) :
    (b.write buf fresh).date.capacity = (b.makeWriteSpace buf.length fresh).date.capacity := by
  simp [write, CharVec.capacity]

theorem write_wf {b : Buffer} (wf : b.Wf) (buf : Bytes) (fresh : Nat → UInt8) :
    (b.write buf fresh).Wf := by
  have hwf := makeWriteSpace_wf wf buf.length fresh
  have hroom := le_writeableSize_makeWriteSpace wf buf.length fresh
  have hend := hwf.end_le
  refine ⟨hwf.start_le.trans (Nat.le_add_right _ _), ?_⟩
  simp only [writeableSize, write, CharVec.capacity, length_writeAt] at *
  omega

theorem readableSize_write {b : Buffer} (wf : b.Wf) (buf : Bytes) (fresh : Nat → UInt8) :
    (b.write buf fresh).readableSize = b.readableSize + buf.length := by
  have hsize := readableSize_makeWriteSpace b buf.length fresh
  have hstart := (makeWriteSpace_wf wf buf.length fresh).start_le
  simp only [readableSize, write] at hsize ⊢
  omega

/-- The block is appended to what `make_write_space` left. -/
theorem readable_write {b : Buffer} (wf : b.Wf) (buf : Bytes) (fresh : Nat → UInt8) :
    (b.write buf fresh).readable = (b.makeWriteSpace buf.length fresh).readable ++ buf := by
  have hwf := makeWriteSpace_wf wf buf.length fresh
  have hroom := le_writeableSize_makeWriteSpace wf buf.length fresh
  have hstart := hwf.start_le
  have hend := hwf.end_le
  have hlen := length_readable hwf
  have hsize := readableSize_write wf buf fresh
  have hkeep := readableSize_makeWriteSpace b buf.length fresh
  apply List.ext_getElem?
  intro i
  rw [getElem?_readable, hsize]
  simp only [write, writeableSize, CharVec.capacity] at *
  by_cases old : i < b.readableSize
  · rw [if_pos (by omega), List.getElem?_append_left (by omega), getElem?_readable,
      if_pos (by omega), getElem?_writeAt (by omega), if_neg (by
        simp only [readableSize] at *; omega)]
  · rw [List.getElem?_append_right (by omega), hlen, hkeep]
    by_cases inside : i < b.readableSize + buf.length
    · rw [if_pos inside, getElem?_writeAt (by omega), if_pos (by
        simp only [readableSize] at *; omega)]
      congr 1
      simp only [readableSize] at *
      omega
    · rw [if_neg inside, List.getElem?_eq_none (by omega)]

end Buffer

/-! ### Histories of calls -/

/-- The calls the servers make on a buffer. -/
inductive Op where
  | write (buf : Bytes) (fresh : Nat → UInt8)
  | readAll
  | read (n : Nat)
  | hasRead (n : Nat)
  | readInt
  | readStr (n : Nat)
  | clear

/-- What the callers promise: no call takes more than is readable. -/
def Op.Legal (b : Buffer) : Op → Prop
  | .read n | .hasRead n | .readStr n => n ≤ b.readableSize
  | .readInt => 4 ≤ b.readableSize
  | .write _ _ | .readAll | .clear => True

/-- The call on the real buffer. -/
def Op.call (b : Buffer) : Op → Except Buffer.Abort Buffer
  | .write buf fresh => .ok (b.write buf fresh)
  | .readAll => .ok b.readAll.2
  | .read n => .ok (b.read n).2
  | .hasRead n => b.hasRead n
  | .readInt => b.readInt.map Prod.snd
  | .readStr n => (b.readStr n).map Prod.snd
  | .clear => .ok b.clear

/-- What the call means for the queue. -/
def Op.record (h : History) : Op → History
  | .write buf _ => h.write buf
  | .readAll | .clear => h.consumeAll
  | .read n | .hasRead n | .readStr n => h.consume n
  | .readInt => h.consume 4

/-- A buffer next to the account of what was done to it. -/
abbrev Ledger := Buffer × History

/-- One call, made and recorded. -/
def Ledger.step (s : Ledger) (op : Op) : Except Buffer.Abort Ledger :=
  (op.call s.1).map fun b => (b, op.record s.2)

/-- A new buffer, nothing written. -/
def Ledger.init : Ledger := (Buffer.new, History.empty)

/-- The readable bytes are the bytes written and not yet consumed. -/
def Ledger.Fifo (s : Ledger) : Prop := s.1.readable = s.2.unread

/-- The sizes agree, whatever the bytes are. -/
structure Ledger.Inv (s : Ledger) : Prop where
  wf : s.1.Wf
  history : s.2.Wf
  size : s.1.readableSize = s.2.unread.length

/-- A call that may reallocate finds no unread byte past `size()` (or only
zeros there). Calls other than `write` always meet the condition. -/
def Ledger.Keeps (s : Ledger) : Op → Prop
  | .write buf _ => s.1.Resizes buf.length → s.1.ZeroPastSize
  | .readAll | .read _ | .hasRead _ | .readInt | .readStr _ | .clear => True

namespace Ledger

theorem inv_init : Inv init :=
  ⟨Buffer.wf_new, Nat.zero_le _, rfl⟩

/-- Every call that only advances `start_idx` by `n` readable bytes. -/
theorem inv_advance {b : Buffer} {h : History} {n : Nat} (inv : Inv (b, h))
    (hn : n ≤ b.readableSize) : Inv ({ b with startIdx := b.startIdx + n }, h.consume n) := by
  obtain ⟨wf, hwf, hsize⟩ := inv
  refine ⟨wf.advance hn, ?_, ?_⟩
  · simp only [History.length_unread, History.Wf, History.consume] at *
    omega
  · simp only [Buffer.readableSize, History.length_unread, History.consume] at *
    omega

theorem fifo_advance {b : Buffer} {h : History} {n : Nat} (fifo : Fifo (b, h)) :
    Fifo ({ b with startIdx := b.startIdx + n }, h.consume n) := by
  have hread : b.readable = h.unread := fifo
  change Buffer.readable _ = (h.consume n).unread
  rw [History.unread_consume, ← hread]
  exact b.readable_advance n

theorem inv_clear {b : Buffer} {h : History} : Inv (b.clear, h.consumeAll) :=
  ⟨⟨le_rfl, Nat.zero_le _⟩, le_rfl, by simp [Buffer.readableSize, Buffer.clear]⟩

theorem fifo_clear {b : Buffer} {h : History} : Fifo (b.clear, h.consumeAll) := by
  simp [Fifo, Buffer.readable, Buffer.bytesAt, Buffer.readableSize, Buffer.clear]

theorem inv_write {b : Buffer} {h : History} (inv : Inv (b, h)) (buf : Bytes)
    (fresh : Nat → UInt8) : Inv (b.write buf fresh, h.write buf) := by
  refine ⟨Buffer.write_wf inv.wf buf fresh, ?_, ?_⟩
  · have := inv.history
    simp only [History.write, History.Wf, List.length_append] at *
    omega
  · have := inv.size
    simp only [History.unread_write inv.history, Buffer.readableSize_write inv.wf,
      List.length_append] at *
    omega

/-- What `write` does to bytes that are right. -/
theorem fifo_write_iff {b : Buffer} {h : History} (inv : Inv (b, h)) (fifo : Fifo (b, h))
    (buf : Bytes) (fresh : Nat → UInt8) :
    Fifo (b.write buf fresh, h.write buf) ↔ Keeps (b, h) (.write buf fresh) := by
  have hread : b.readable = h.unread := fifo
  change Buffer.readable _ = History.unread _ ↔ _
  rw [History.unread_write inv.history, ← hread, Buffer.readable_write inv.wf,
    List.append_cancel_right_eq]
  by_cases resizes : b.Resizes buf.length
  · rw [Buffer.readable_makeWriteSpace_iff inv.wf resizes]
    exact ⟨fun hz _ => hz, fun hz => hz resizes⟩
  · exact iff_of_true (Buffer.readable_makeWriteSpace inv.wf resizes fresh)
      fun hr => absurd hr resizes

/-- With nothing to read the history has nothing unread either. -/
theorem consumeAll_of_empty {b : Buffer} {h : History} (inv : Inv (b, h))
    (empty : b.readableSize ≤ 0) : h.consumeAll = h := by
  have hunread : h.unread = [] := by
    have hsize : b.readableSize = h.unread.length := inv.size
    rw [← List.length_eq_zero_iff]
    omega
  exact History.consumeAll_of_unread inv.history hunread

/-- Every legal call succeeds and keeps the sizes in step; it keeps the bytes
right exactly when it meets `Keeps`. -/
theorem step_exact {s : Ledger} {op : Op} (inv : s.Inv) (legal : op.Legal s.1) :
    ∃ s', s.step op = .ok s' ∧ s'.Inv ∧ (s.Fifo → (s'.Fifo ↔ s.Keeps op)) := by
  obtain ⟨b, h⟩ := s
  have advance : ∀ n, n ≤ b.readableSize →
      Inv ({ b with startIdx := b.startIdx + n }, h.consume n) ∧
        (Fifo (b, h) → (Fifo ({ b with startIdx := b.startIdx + n }, h.consume n) ↔ True)) :=
    fun n hn => ⟨inv_advance inv hn, fun fifo => iff_true_intro (fifo_advance fifo)⟩
  have hstart : b.startIdx ≤ b.endIdx := inv.wf.start_le
  cases op with
  | write buf fresh =>
      exact ⟨_, rfl, inv_write inv buf fresh, fun fifo => fifo_write_iff inv fifo buf fresh⟩
  | readAll =>
      by_cases empty : b.readableSize ≤ 0
      · -- nothing to read: `NULL`
        refine ⟨(b, h), ?_, inv, fun fifo => iff_of_true fifo trivial⟩
        simp only [step, Op.call, Buffer.readAll, if_pos empty, Op.record,
          consumeAll_of_empty inv empty]
        rfl
      · refine ⟨(b.clear, h.consumeAll), ?_, inv_clear, fun _ => iff_of_true fifo_clear trivial⟩
        simp only [step, Op.call, Buffer.readAll, if_neg empty]
        rfl
  | read n =>
      by_cases empty : b.readableSize ≤ 0
      · have hn : n ≤ b.readableSize := legal
        obtain rfl : n = 0 := by omega
        refine ⟨(b, h), ?_, inv, fun fifo => iff_of_true fifo trivial⟩
        simp only [step, Op.call, Buffer.read, if_pos empty]
        rfl
      · refine ⟨_, ?_, advance n legal⟩
        simp only [step, Op.call, Buffer.read, if_neg empty]
        rfl
  | hasRead n =>
      refine ⟨_, ?_, advance n legal⟩
      have hn : n ≤ b.endIdx - b.startIdx := legal
      have hle : b.startIdx + n ≤ b.endIdx := by omega
      simp only [step, Op.call, Buffer.hasRead, if_pos hle]
      rfl
  | readInt =>
      refine ⟨_, ?_, advance 4 legal⟩
      have hsize : b.readableSize ≥ 4 := legal
      simp only [step, Op.call, Buffer.readInt, if_pos hsize]
      rfl
  | readStr n =>
      refine ⟨_, ?_, advance n legal⟩
      have hsize : b.readableSize ≥ n := legal
      simp only [step, Op.call, Buffer.readStr, if_pos hsize]
      rfl
  | clear => exact ⟨_, rfl, inv_clear, fun _ => iff_of_true fifo_clear trivial⟩

theorem step_write (b : Buffer) (h : History) (buf : Bytes) (fresh : Nat → UInt8) :
    step (b, h) (.write buf fresh) = .ok (b.write buf fresh, h.write buf) := rfl

theorem step_ensures {s : Ledger} {op : Op} (inv : s.Inv) (legal : op.Legal s.1) :
    Ensures (s.step op) Inv fun _ => False := by
  obtain ⟨s', hs', inv', -⟩ := step_exact inv legal
  rw [hs']
  exact inv'

theorem allReached_fifo_iff {ops : List Op}
    (legal : Every step (fun s op => op.Legal s.1) init ops) :
    AllReached step Fifo init ops ↔ Every step Keeps init ops := by
  have hfifo : Fifo init := rfl
  refine good_iff_every (fun s op inv legal => (step_ensures inv legal).mono (fun _ h => h)
    fun _ _ => trivial) (fun s op inv legal fifo => ?_) inv_init hfifo legal
  obtain ⟨s', hs', -, exact'⟩ := step_exact inv legal
  rw [hs', ensures_ok]
  exact exact' fifo

/-- **When a buffer is a queue.** A legal sequence of calls never fails an
assertion, and the readable bytes are the unread bytes after every call iff no
call reallocates over unread non-zero bytes past `size()`. -/
theorem buffer_fifo_iff (ops : List Op)
    (legal : Every step (fun s op => op.Legal s.1) init ops) :
    (∃ s, exec step init ops = .ok s) ∧
      (AllReached step Fifo init ops ↔ Every step Keeps init ops) := by
  refine ⟨?_, allReached_fifo_iff legal⟩
  have hrun := exec_ensures_of_every (fun s op => step_ensures) inv_init legal
  cases h : exec step init ops with
  | ok s => exact ⟨s, rfl⟩
  | error x => exact (hrun.of_error h).elim

/-- Four bytes written may be read back as an `int`. -/
theorem legal_write_readInt {b : Buffer} (wf : b.Wf) (h : History) {buf : Bytes}
    (hbuf : 4 ≤ buf.length) (fresh : Nat → UInt8) :
    Every step (fun s op => op.Legal s.1) (b, h) [.write buf fresh, .readInt, .clear] := by
  rw [every_cons_ok (step_write b h buf fresh)]
  refine ⟨trivial, ?_, fun _ _ => ⟨trivial, fun _ _ => trivial⟩⟩
  show 4 ≤ (b.write buf fresh).readableSize
  rw [Buffer.readableSize_write wf]
  omega

theorem buffer_fifo_iff_read :
    (∃ s, exec step init [.write [7, 0, 0, 0, 65] fun _ => 0, .readInt, .clear] = .ok s) ∧
      (AllReached step Fifo init [.write [7, 0, 0, 0, 65] fun _ => 0, .readInt, .clear] ↔
        Every step Keeps init [.write [7, 0, 0, 0, 65] fun _ => 0, .readInt, .clear]) :=
  buffer_fifo_iff _ (legal_write_readInt Buffer.wf_new _ (by decide) _)

/-- Three writes without a read in between lose bytes: the first (`xs`) grows the
allocation past what it needs, the second (`ys`) goes into the spare room, and
the third (`zs`) grows again, which carries over only the first `size()` bytes. -/
theorem second_growth_loses {xs ys zs : Bytes} {f g k : Nat → UInt8} {y : UInt8}
    (hx : Buffer.BUFFER_SIZE < xs.length)
    (hy : xs.length + ys.length ≤
      Buffer.BUFFER_SIZE + max Buffer.BUFFER_SIZE (xs.length - Buffer.BUFFER_SIZE))
    (hz : Buffer.BUFFER_SIZE + max Buffer.BUFFER_SIZE (xs.length - Buffer.BUFFER_SIZE) <
      xs.length + ys.length + zs.length)
    (hhead : ys[0]? = some y) (hne : y ≠ 0) :
    ¬ AllReached step Fifo init [.write xs f, .write ys g, .write zs k] := by
  intro reached
  have legal : Every step (fun s op => op.Legal s.1) init [.write xs f, .write ys g, .write zs k] :=
    ⟨trivial, fun _ _ => ⟨trivial, fun _ _ => ⟨trivial, fun _ _ => trivial⟩⟩⟩
  have hpos : 0 < ys.length := by
    by_contra hempty
    rw [List.getElem?_eq_none (by omega)] at hhead
    cases hhead
  set b₁ := Buffer.new.write xs f with hb₁
  set b₂ := b₁.write ys g with hb₂
  -- the first write grows the allocation
  have grow : Buffer.new.Resizes xs.length := by
    have hstart : Buffer.new.startIdx = 0 := rfl
    simp only [Buffer.Resizes, Buffer.writeableSize, Buffer.preSize, Buffer.capacity_new, hstart]
    omega
  have first := Buffer.makeWriteSpace_of_resizes grow f
  have capacity₁ : b₁.date.capacity =
      Buffer.BUFFER_SIZE + max Buffer.BUFFER_SIZE (xs.length - Buffer.BUFFER_SIZE) := by
    rw [hb₁, Buffer.capacity_write, first,
      CharVec.capacity_resize _ (grow.capacity_lt Buffer.wf_new), Buffer.size_new]
    simp only [Buffer.sizeAll, Buffer.new]
    omega
  have bounds₁ : b₁.startIdx = 0 ∧ b₁.endIdx = xs.length ∧ b₁.date.size = xs.length := by
    simp only [hb₁, Buffer.write, first, CharVec.size_resize]
    simp [Buffer.new, Buffer.sizeAll]
  obtain ⟨start₁, end₁, size₁⟩ := bounds₁
  -- the second goes into the spare room
  have room : b₁.makeWriteSpace ys.length g = b₁ :=
    Buffer.makeWriteSpace_of_room (by simp only [Buffer.writeableSize, capacity₁, end₁]; omega) g
  have capacity₂ : b₂.date.capacity = b₁.date.capacity := by
    rw [hb₂, Buffer.capacity_write, room]
  have bounds₂ : b₂.startIdx = 0 ∧ b₂.endIdx = xs.length + ys.length ∧
      b₂.date.size = xs.length := by
    simp only [hb₂, Buffer.write, room, start₁, end₁, size₁, and_self]
  obtain ⟨start₂, end₂, size₂⟩ := bounds₂
  -- the bytes are still right, so the first byte of `ys` lies right past `size()`
  have fifo₂ : b₂.readable = ((History.empty.write xs).write ys).unread := by
    refine reached [.write xs f, .write ys g] (List.prefix_append [_, _] [_]) (b₂, _) ?_
    rw [exec_cons_ok (step_write ..), exec_cons_ok (step_write ..)]
    rfl
  have lies : b₂.date.mem[xs.length]? = some y := by
    have h := congrArg (fun q => q[xs.length]?) fifo₂
    simp only [Buffer.getElem?_readable, Buffer.readableSize, start₂, end₂] at h
    rw [if_pos (by omega), Nat.zero_add] at h
    rw [h, ← hhead]
    show ([] ++ xs ++ ys)[xs.length]? = ys[0]?
    rw [List.nil_append, List.getElem?_append_right le_rfl, Nat.sub_self]
  -- and the third write grows over it
  have keeps := (allReached_fifo_iff legal).mp reached
  have zero : b₂.ZeroPastSize := ((keeps.2 _ (step_write ..)).2 (b₂, _) (step_write ..)).1 (by
    simp only [Buffer.Resizes, Buffer.writeableSize, Buffer.preSize, capacity₂, capacity₁, end₂,
      start₂]
    omega)
  have := zero xs.length (by omega) (by omega) (by omega)
  rw [lies] at this
  exact hne (Option.some.inj this)

/-- Writes of 5000, 3000 and 1000 bytes. -/
def growTwice : List Op :=
  [.write (List.replicate 5000 1) fun _ => 0, .write (List.replicate 3000 1) fun _ => 0,
    .write (List.replicate 1000 1) fun _ => 0]

/-- A legal sequence of calls after which the readable bytes are wrong. -/
theorem growTwice_not_fifo :
    Every step (fun s op => op.Legal s.1) init growTwice ∧
      ¬ AllReached step Fifo init growTwice := by
  refine ⟨⟨trivial, fun _ _ => ⟨trivial, fun _ _ => ⟨trivial, fun _ _ => trivial⟩⟩⟩, ?_⟩
  apply second_growth_loses (y := 1)
  · rw [List.length_replicate]; decide
  · rw [List.length_replicate, List.length_replicate]; decide
  · rw [List.length_replicate, List.length_replicate, List.length_replicate]; decide
  · rw [List.getElem?_replicate_of_lt (by decide)]
  · decide

end Ledger

end MixServer.Net
