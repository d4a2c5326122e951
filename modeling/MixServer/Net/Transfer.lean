import MixServer.Net.Buffer
import MixServer.Net.Msg

/-!
What the callers do with a `Buffer`, over its memory: the receive loop of `Socket::recv`, the
send loop of `Socket::send`, and the reads of the handlers.

`recvInto` appends what was received exactly if no block loses a byte
(`receives_iff`); the first bytes of a buffer that is read from its start are never
lost (`take_recvInto`). A read takes its bytes off the front of what is readable, so that a
handler sees of the memory no more than the readable bytes (`fillFrom_spec`).
-/

namespace MixServer.Net

open Lib

/-! ### The receive loop -/

/-- A block that `::recv` returned, and what a new allocation holds if `Buffer::write` makes
one for it. -/
abbrev Block := Bytes × (Nat → UInt8)

/-- A READ dispatch: the blocks of the receive loop, and how it ends. -/
structure ReadDispatch where
  blocks : List Block
  last : Socket.RecvEnd

namespace Buffer

/-- `Socket::recv(pbuf)`, on the memory of the buffer. -/
def recvInto (b : Buffer) (blocks : List Block) : Buffer :=
  blocks.foldl (fun b block => b.write block.1 block.2) b

/-- The bytes of the blocks. -/
def bytes (blocks : List Block) : Bytes := (blocks.map Prod.fst).flatten

/-- What is readable after the receive loop is what was readable, and what was received. -/
def Receives (b : Buffer) (blocks : List Block) : Prop :=
  (recvInto b blocks).readable = b.readable ++ bytes blocks

/-- No block makes the buffer reallocate while an unread byte other than zero lies beyond
`size()`. -/
def KeepsAll (b : Buffer) : List Block → Prop
  | [] => True
  | block :: blocks =>
      (b.Resizes block.1.length → b.ZeroPastSize) ∧ KeepsAll (b.write block.1 block.2) blocks

variable {b : Buffer} {len : Nat} {fresh : Nat → UInt8}

/-- `make_write_space` leaves a readable byte as it is, or makes it zero. -/
theorem readable_makeWriteSpace_or (wf : b.Wf) (i : Nat) :
    (b.makeWriteSpace len fresh).readable[i]? = b.readable[i]? ∨
      i < b.readableSize ∧ (b.makeWriteSpace len fresh).readable[i]? = some 0 := by
  by_cases hresizes : b.Resizes len
  · have hcap := hresizes.capacity_lt wf
    have hidx : (b.makeWriteSpace len fresh).startIdx = b.startIdx := by
      rw [makeWriteSpace_of_resizes hresizes]
    rw [getElem?_readable, getElem?_readable, readableSize_makeWriteSpace, hidx]
    by_cases hi : i < b.readableSize
    · have hto : b.startIdx + i < b.sizeAll + len := by
        simp only [readableSize] at hi
        simp only [sizeAll]
        omega
      rw [if_pos hi, if_pos hi, makeWriteSpace_of_resizes hresizes]
      dsimp only
      rw [CharVec.getElem?_resize fresh hto]
      split
      · exact .inl rfl
      · exact .inr ⟨hi, rfl⟩
    · rw [if_neg hi, if_neg hi]
      exact .inl rfl
  · rw [readable_makeWriteSpace wf hresizes]
    exact .inl rfl

/-- A readable byte that is zero stays zero, whatever is written. -/
theorem zero_recvInto (wf : b.Wf) {i : Nat} (hzero : b.readable[i]? = some 0)
    (blocks : List Block) : (recvInto b blocks).readable[i]? = some 0 := by
  induction blocks generalizing b with
  | nil => exact hzero
  | cons block blocks ih =>
    refine ih (write_wf wf _ _) ?_
    have hspace : (b.makeWriteSpace block.1.length block.2).readable[i]? = some 0 := by
      rcases readable_makeWriteSpace_or wf i with hsame | ⟨-, hnew⟩
      · exact hsame.trans hzero
      · exact hnew
    rw [readable_write wf, List.getElem?_append_left]
    · exact hspace
    · exact (List.getElem?_eq_some_iff.mp hspace).1

theorem bytes_append (blocks blocks' : List Block) :
    bytes (blocks ++ blocks') = bytes blocks ++ bytes blocks' := by
  simp only [bytes, List.map_append, List.flatten_append]

theorem bytes_flatten (dispatches : List (List Block)) :
    bytes dispatches.flatten = (dispatches.map bytes).flatten := by
  induction dispatches with
  | nil => rfl
  | cons blocks dispatches ih =>
    rw [List.flatten_cons, bytes_append, ih, List.map_cons, List.flatten_cons]

theorem wf_recvInto (wf : b.Wf) (blocks : List Block) : (recvInto b blocks).Wf := by
  induction blocks generalizing b with
  | nil => exact wf
  | cons block blocks ih => exact ih (write_wf wf _ _)

theorem readableSize_recvInto (wf : b.Wf) (blocks : List Block) :
    (recvInto b blocks).readableSize = b.readableSize + (bytes blocks).length := by
  induction blocks generalizing b with
  | nil => rfl
  | cons block blocks ih =>
    have hbytes : bytes (block :: blocks) = block.1 ++ bytes blocks := rfl
    rw [hbytes, List.length_append, ← Nat.add_assoc, ← readableSize_write wf block.1 block.2]
    exact ih (write_wf wf _ _)

/-- One `Socket::recv` appends what it received exactly if no block loses a byte. -/
theorem receives_iff (wf : b.Wf) (blocks : List Block) :
    b.Receives blocks ↔ b.KeepsAll blocks := by
  unfold Receives
  induction blocks generalizing b with
  | nil => simp [recvInto, bytes, KeepsAll]
  | cons block blocks ih =>
    have hcons : recvInto b (block :: blocks) = recvInto (b.write block.1 block.2) blocks := rfl
    have hbytes : bytes (block :: blocks) = block.1 ++ bytes blocks := rfl
    have hwf := write_wf wf block.1 block.2
    have hkeep : (b.makeWriteSpace block.1.length block.2).readable = b.readable ↔
        (b.Resizes block.1.length → b.ZeroPastSize) := by
      by_cases hresizes : b.Resizes block.1.length
      · rw [readable_makeWriteSpace_iff wf hresizes]
        exact ⟨fun h _ => h, fun h => h hresizes⟩
      · exact iff_of_true (readable_makeWriteSpace wf hresizes _) fun h => absurd h hresizes
    rw [KeepsAll, ← hkeep, hcons, hbytes]
    by_cases hsame : (b.makeWriteSpace block.1.length block.2).readable = b.readable
    · rw [← List.append_assoc, ← ih hwf, readable_write wf, hsame]
      exact (and_iff_right rfl).symm
    · refine iff_of_false ?_ fun h => hsame h.1
      -- a byte that has become zero is zero for good
      obtain ⟨i, hi⟩ := not_forall.mp (mt List.ext_getElem? hsame)
      rcases readable_makeWriteSpace_or wf i with heq | ⟨hlt, hzero⟩
      · exact absurd heq hi
      · rw [hzero] at hi
        have hwritten : (b.write block.1 block.2).readable[i]? = some 0 := by
          rw [readable_write wf, List.getElem?_append_left (List.getElem?_eq_some_iff.mp hzero).1]
          exact hzero
        intro heq
        have hlast := zero_recvInto hwf hwritten blocks
        rw [heq, List.getElem?_append_left (by rwa [length_readable wf])] at hlast
        exact hi hlast.symm

/-- A first block that fits in the vector is not lost. -/
theorem keepsAll_new (block : Block) (h : block.1.length ≤ BUFFER_SIZE) :
    new.KeepsAll [block] := by
  refine ⟨fun hresizes => absurd ?_ hresizes.1, trivial⟩
  simp only [writeableSize, capacity_new]
  exact h

/-- Where there is room for them in the allocation, the blocks are not lost. -/
theorem keepsAll_of_room (wf : b.Wf) {blocks : List Block}
    (h : b.readableSize + (bytes blocks).length ≤ b.date.capacity) :
    b.KeepsAll blocks ∧ (recvInto b blocks).date.capacity = b.date.capacity := by
  induction blocks generalizing b with
  | nil => exact ⟨trivial, rfl⟩
  | cons block blocks ih =>
    have hbytes : bytes (block :: blocks) = block.1 ++ bytes blocks := rfl
    have hstart := wf.start_le
    have hend := wf.end_le
    rw [hbytes, List.length_append] at h
    have hroom : ¬ b.Resizes block.1.length := by
      rintro ⟨-, hboth⟩
      apply hboth
      simp only [preSize, writeableSize, readableSize] at *
      omega
    have hcap : (b.write block.1 block.2).date.capacity = b.date.capacity := by
      rw [capacity_write, makeWriteSpace]
      split
      · rfl
      · split
        · exact length_copyWithin ..
        · exact absurd ⟨‹_›, ‹_›⟩ hroom
    obtain ⟨hkeeps, hrest⟩ := ih (write_wf wf block.1 block.2) (by
      rw [readableSize_write wf, hcap]
      omega)
    exact ⟨⟨fun hresizes => absurd hresizes hroom, hkeeps⟩, hrest.trans hcap⟩

/-! The first bytes. -/

/-- Nothing has been read, and the first four bytes are elements of the vector. -/
structure AtStart (b : Buffer) : Prop where
  start : b.startIdx = 0
  size : 4 ≤ b.date.size

theorem atStart_new : AtStart new := ⟨rfl, by rw [size_new]; decide⟩

theorem AtStart.write (h : AtStart b) (buf : Bytes) (fresh : Nat → UInt8) (wf : b.Wf) :
    AtStart (b.write buf fresh) := by
  have hspace : AtStart (b.makeWriteSpace buf.length fresh) := by
    by_cases hresizes : b.Resizes buf.length
    · have hcap := hresizes.capacity_lt wf
      have hsize := b.date.size_le
      have hmin := h.size
      rw [makeWriteSpace_of_resizes hresizes]
      refine ⟨h.start, ?_⟩
      rw [CharVec.size_resize]
      simp only [CharVec.capacity] at hcap
      omega
    · unfold makeWriteSpace
      split
      · exact h
      · split
        · exact ⟨rfl, h.size⟩
        · exact absurd ⟨‹_›, ‹_›⟩ hresizes
  exact ⟨hspace.start, hspace.size⟩

theorem AtStart.take_makeWriteSpace (h : AtStart b) (wf : b.Wf) :
    (b.makeWriteSpace len fresh).readable.take 4 = b.readable.take 4 := by
  by_cases hresizes : b.Resizes len
  · have hcap := hresizes.capacity_lt wf
    have hidx : (b.makeWriteSpace len fresh).startIdx = b.startIdx := by
      rw [makeWriteSpace_of_resizes hresizes]
    apply List.ext_getElem?
    intro i
    by_cases hi : i < 4
    · rw [List.getElem?_take_of_lt hi, List.getElem?_take_of_lt hi, getElem?_readable,
        getElem?_readable, readableSize_makeWriteSpace, hidx, makeWriteSpace_of_resizes hresizes,
        h.start, Nat.zero_add]
      split
      · rename_i hread
        have hmin := h.size
        simp only [readableSize] at hread
        rw [CharVec.getElem?_resize fresh (by simp only [sizeAll]; omega), if_pos (by omega)]
      · rfl
    · rw [List.getElem?_take_eq_none (not_lt.mp hi), List.getElem?_take_eq_none (not_lt.mp hi)]
  · rw [readable_makeWriteSpace wf hresizes]

/-- The first four bytes arrive as they were sent. -/
theorem take_recvInto (h : AtStart b) (wf : b.Wf) (blocks : List Block) :
    AtStart (recvInto b blocks) ∧
      (recvInto b blocks).readable.take 4 = (b.readable ++ bytes blocks).take 4 := by
  induction blocks generalizing b with
  | nil => exact ⟨h, by simp [recvInto, bytes]⟩
  | cons block blocks ih =>
    obtain ⟨hstart, htake⟩ := ih (h.write block.1 block.2 wf) (write_wf wf block.1 block.2)
    refine ⟨hstart, htake.trans ?_⟩
    have hbytes : bytes (block :: blocks) = block.1 ++ bytes blocks := rfl
    have hlength : (b.makeWriteSpace block.1.length block.2).readable.length =
        b.readable.length := by
      rw [length_readable (makeWriteSpace_wf wf _ _), length_readable wf,
        readableSize_makeWriteSpace]
    rw [readable_write wf, hbytes, List.append_assoc, List.take_append, hlength,
      h.take_makeWriteSpace wf, ← List.take_append]

/-! ### The send loop -/

/-- What is left of `Socket::send`: the error it returned, if any, the buffer, and the bytes
that the kernel accepted. -/
structure Sent where
  error : Option Errno
  pbuf : Buffer
  wire : Bytes

/-- The loop of `Socket::send`, which sends from the pointer `buf` each time. -/
def sendLoop (buf : Nat) : List Socket.SendRet → Nat → Buffer → Except Buffer.Abort Sent
  | _, 0, b => .ok ⟨none, b, []⟩
  | [], _ + 1, b => .ok ⟨some .EAGAIN, b, []⟩
  | .error e :: _, _ + 1, b => .ok ⟨some e, b, []⟩
  | .accepted room :: rets, size + 1, b => do
      let n := Socket.taken room (size + 1)
      let wire := b.bytesAt buf n
      let b ← b.hasRead n
      let out ← sendLoop buf rets (size + 1 - n) b
      return { out with wire := wire ++ out.wire }

/-- `Socket::send(pbuf)`, on the memory of the buffer. -/
def send (b : Buffer) (rets : List Socket.SendRet) : Except Buffer.Abort Sent :=
  sendLoop b.getBuf rets b.readableSize b

/-- The loop only advances the buffer. On the readable bytes it is `Socket.sendLoop`. -/
theorem sendLoop_spec (rets : List Socket.SendRet) {k : Nat} (size : Nat)
    (hsize : k + size = b.readableSize) :
    ∃ out n, sendLoop b.startIdx rets size { b with startIdx := b.startIdx + k } = .ok out ∧
      n ≤ size ∧ out.pbuf = { b with startIdx := b.startIdx + (k + n) } ∧
      Socket.sendLoop b.readable rets size (b.readable.drop k) =
        ⟨out.error, out.pbuf.readable, out.wire⟩ := by
  have hstop : ∀ e, ∃ out n,
      (.ok ⟨e, { b with startIdx := b.startIdx + k }, []⟩ : Except Buffer.Abort Sent) = .ok out ∧
        n ≤ size ∧ out.pbuf = { b with startIdx := b.startIdx + (k + n) } ∧
        (⟨e, b.readable.drop k, []⟩ : Socket.SendOut) =
          ⟨out.error, out.pbuf.readable, out.wire⟩ := by
    intro e
    exact ⟨_, 0, rfl, Nat.zero_le _, rfl, by rw [readable_advance]⟩
  induction rets generalizing k size with
  | nil =>
    cases size with
    | zero => exact hstop none
    | succ size => exact hstop (some .EAGAIN)
  | cons ret rets ih =>
    cases size with
    | zero => exact hstop none
    | succ size =>
      cases ret with
      | error e => exact hstop (some e)
      | accepted room =>
        have hle := Socket.taken_le room (size + 1)
        have hread : Buffer.hasRead { b with startIdx := b.startIdx + k }
            (Socket.taken room (size + 1)) =
            .ok { b with startIdx := b.startIdx + (k + Socket.taken room (size + 1)) } := by
          simp only [readableSize] at hsize
          rw [hasRead, if_pos (by dsimp only; omega), Nat.add_assoc]
        obtain ⟨out, n, hloop, hn, hpbuf, hideal⟩ := ih
          (k := k + Socket.taken room (size + 1)) (size + 1 - Socket.taken room (size + 1))
          (by omega) fun e => ⟨_, 0, rfl, Nat.zero_le _, rfl, by rw [readable_advance]⟩
        refine ⟨{ out with
            wire := b.bytesAt b.startIdx (Socket.taken room (size + 1)) ++ out.wire },
          Socket.taken room (size + 1) + n, ?_, by omega, ?_, ?_⟩
        · simp only [sendLoop, hread, ok_bind, hloop]
          rfl
        · rw [hpbuf, Nat.add_assoc]
        · have hwire : b.readable.take (Socket.taken room (size + 1)) =
              b.bytesAt b.startIdx (Socket.taken room (size + 1)) := by
            rw [readable, bytesAt, List.take_take, Nat.min_eq_left (by omega)]
            rfl
          simp only [Socket.sendLoop, List.drop_drop, hideal, hwire]

/-- `Socket::send` advances the buffer, and is `Socket.send` on its readable bytes. -/
theorem send_spec (wf : b.Wf) (rets : List Socket.SendRet) :
    ∃ out n, b.send rets = .ok out ∧ n ≤ b.readableSize ∧
      out.pbuf = { b with startIdx := b.startIdx + n } ∧
      Socket.send b.readable rets = ⟨out.error, out.pbuf.readable, out.wire⟩ := by
  obtain ⟨out, n, hloop, hn, hpbuf, hideal⟩ :=
    sendLoop_spec (b := b) rets (k := 0) b.readableSize (Nat.zero_add _)
  refine ⟨out, n, hloop, hn, ?_, ?_⟩
  · rw [hpbuf, Nat.zero_add]
  · rw [Socket.send, length_readable wf]
    exact hideal

/-- What the kernel takes in `Socket::send`. -/
def onWire (b : Buffer) (rets : List Socket.SendRet) : Bytes :=
  match b.send rets with
  | .ok out => out.wire
  | .error _ => []

theorem onWire_eq (wf : b.Wf) (rets : List Socket.SendRet) :
    b.onWire rets = (Socket.send b.readable rets).wire := by
  obtain ⟨out, n, hsend, -, -, hideal⟩ := send_spec wf rets
  rw [onWire, hsend, hideal]

/-! ### The reads of the handlers -/

/-- `read(n)`, with the `n` bytes that the caller finds at the pointer. -/
def readBytes (b : Buffer) (n : Nat) : Bytes × Buffer :=
  match b.read n with
  | (some p, b') => (b'.bytesAt p n, b')
  | (none, b') => ([], b')

/-- `read()`, with the bytes that the caller finds at the pointer. -/
def readAllBytes (b : Buffer) : Bytes × Buffer :=
  match b.readAll with
  | (some p, b') => (b'.bytesAt p b.readableSize, b')
  | (none, b') => ([], b')

theorem readBytes_spec (wf : b.Wf) {n : Nat} (hn : n ≤ b.readableSize) :
    (b.readBytes n).1 = b.readable.take n ∧
      (b.readBytes n).2.readable = b.readable.drop n ∧ (b.readBytes n).2.Wf := by
  by_cases hempty : b.readableSize ≤ 0
  · obtain rfl : n = 0 := by omega
    simp only [readBytes, read, if_pos hempty]
    exact ⟨rfl, rfl, wf⟩
  · simp only [readBytes, read, if_neg hempty]
    refine ⟨?_, b.readable_advance n, wf.advance hn⟩
    rw [readable, bytesAt, bytesAt, List.take_take, Nat.min_eq_left hn]

theorem readAllBytes_spec (wf : b.Wf) :
    b.readAllBytes.1 = b.readable ∧ b.readAllBytes.2.readable = [] ∧ b.readAllBytes.2.Wf := by
  by_cases hempty : b.readableSize ≤ 0
  · have hnil : b.readable = [] := by
      apply List.eq_nil_of_length_eq_zero
      rw [length_readable wf]
      exact Nat.le_zero.mp hempty
    simp only [readAllBytes, readAll, if_pos hempty]
    exact ⟨hnil.symm, hnil, wf⟩
  · simp only [readAllBytes, readAll, if_neg hempty]
    exact ⟨rfl, readable_clear b, wf_clear b⟩

end Buffer

/-! ### One step of reading -/

/-- `fill`, on the memory of the read buffer. -/
def fillFrom (pmsg : Msg) (pbuf : Buffer) : Except Abort (Msg × Buffer × Bool) := do
  let (pmsg, pbuf) ←
    (if pmsg.len = 0 ∧ 4 ≤ pbuf.readableSize then
      match pbuf.readInt with
      | .ok (msgLen, pbuf) => (pmsg.tryWrite msgLen).map fun m => (m, pbuf)
      | .error _ => .error .readInt
    else
      .ok (pmsg, pbuf) : Except Abort (Msg × Buffer))
  let remainLen := pmsg.getRemainLen
  if 0 < remainLen ∧ 0 < pbuf.readableSize then
    let readSize := if remainLen < pbuf.readableSize then remainLen.toNat else pbuf.readableSize
    let read := pbuf.readBytes readSize
    let pmsg := pmsg.write read.1
    return (pmsg, read.2, pmsg.getRemainLen = 0)
  else
    return (pmsg, pbuf, false)

/-- On the readable bytes it is `fill`. -/
theorem fillFrom_spec (pmsg : Msg) {pbuf : Buffer} (wf : pbuf.Wf) :
    Ensures (fillFrom pmsg pbuf)
      (fun r => r.2.1.Wf ∧ fill pmsg pbuf.readable = .ok (r.1, r.2.1.readable, r.2.2))
      (fun x => fill pmsg pbuf.readable = .error x) := by
  have hrest : ∀ (pmsg : Msg) {pbuf : Buffer}, pbuf.Wf → ∀ {f : Except Abort (Msg × Bytes × Bool)},
      f = (if 0 < pmsg.getRemainLen ∧ 0 < pbuf.readable.length then
          let readSize := if pmsg.getRemainLen < pbuf.readable.length then
            pmsg.getRemainLen.toNat else pbuf.readable.length
          let pmsg := pmsg.write (pbuf.readable.take readSize)
          .ok (pmsg, pbuf.readable.drop readSize, pmsg.getRemainLen = 0)
        else .ok (pmsg, pbuf.readable, false)) →
      Ensures
        (if 0 < pmsg.getRemainLen ∧ 0 < pbuf.readableSize then
          let readSize := if pmsg.getRemainLen < pbuf.readableSize then
            pmsg.getRemainLen.toNat else pbuf.readableSize
          let read := pbuf.readBytes readSize
          let pmsg := pmsg.write read.1
          (.ok (pmsg, read.2, pmsg.getRemainLen = 0) : Except Abort (Msg × Buffer × Bool))
        else .ok (pmsg, pbuf, false))
        (fun r => r.2.1.Wf ∧ f = .ok (r.1, r.2.1.readable, r.2.2)) (fun x => f = .error x) := by
    intro pmsg pbuf wf f hf
    rw [Buffer.length_readable wf] at hf
    split
    · rename_i hmore
      rw [if_pos hmore] at hf
      have hle : (if pmsg.getRemainLen < pbuf.readableSize then pmsg.getRemainLen.toNat
          else pbuf.readableSize) ≤ pbuf.readableSize := by
        split
        · omega
        · exact le_rfl
      obtain ⟨hbytes, hleft, hwf⟩ := Buffer.readBytes_spec wf hle
      refine ⟨hwf, ?_⟩
      rw [hf, hleft, hbytes]
    · rename_i hmore
      rw [if_neg hmore] at hf
      exact ⟨wf, hf⟩
  have hlength := Buffer.length_readable wf
  by_cases hword : pmsg.len = 0 ∧ 4 ≤ pbuf.readableSize
  · have hword' : pmsg.len = 0 ∧ 4 ≤ pbuf.readable.length := by rwa [hlength]
    have hbytes : Net.readInt (pbuf.bytesAt pbuf.getBuf 4) = Net.readInt pbuf.readable := by
      rw [Net.readInt, Net.readInt, Buffer.readable, Buffer.bytesAt, Buffer.bytesAt,
        List.take_take, List.take_take, Nat.min_self, Nat.min_eq_left hword.2]
    have hread : pbuf.readInt =
        .ok (Net.readInt pbuf.readable, { pbuf with startIdx := pbuf.startIdx + 4 }) := by
      rw [Buffer.readInt, if_pos hword.2, hbytes]
    rw [fillFrom, fill, if_pos hword, if_pos hword', hread]
    simp only [Msg.tryWrite]
    split
    · have h := hrest { pmsg with
          len := Net.readInt pbuf.readable, hasWriteSize := 0, msgReading := true, prawData := [] }
        (wf.advance hword.2) (f := _) rfl
      rw [pbuf.readable_advance] at h
      exact h
    · rfl
  · have hword' : ¬ (pmsg.len = 0 ∧ 4 ≤ pbuf.readable.length) := by rwa [hlength]
    rw [fillFrom, fill, if_neg hword, if_neg hword']
    exact hrest pmsg wf rfl

/-- Reading leaves the allocation as it is. -/
theorem fillFrom_date (pmsg : Msg) (pbuf : Buffer) :
    Ensures (fillFrom pmsg pbuf) (fun r => r.2.1.date = pbuf.date) fun _ => True := by
  have hread : ∀ (b : Buffer) (n : Nat), (b.readBytes n).2.date = b.date := by
    intro b n
    unfold Buffer.readBytes Buffer.read
    split
    · rename_i heq
      split at heq
      · cases heq
      · cases heq
        rfl
    · rename_i heq
      split at heq
      · cases heq
        rfl
      · cases heq
  refine Ensures.bind (Q := fun r => r.2.date = pbuf.date) ?_ ?_
  · split
    · rw [Buffer.readInt]
      split
      · rename_i heq
        split at heq
        · cases heq
          unfold Msg.tryWrite
          split
          · rfl
          · trivial
        · cases heq
      · trivial
    · rfl
  · rintro ⟨pmsg, pbuf'⟩ hdate
    dsimp only
    split
    · exact (hread _ _).trans hdate
    · exact hdate

end MixServer.Net
