import MixServer.Net.Transfer

/-!
`EchoServer` (`server/tcpserver.cpp`): what a connection sends is queued for it again.

`EchoServer::handle_read` takes all that is readable, stores a zero behind it so that it can
be printed, and queues it. It is modelled over the memory of both buffers: the zero goes to
the byte at `end_idx` of the read buffer, which belongs to the allocation only while there is
room, with nothing to read `Buffer::read` returns `NULL`, and the write buffer may lose what
is queued when it grows. `echo_iff` is about all dispatches of a connection.
-/

namespace MixServer

open Lib Net

/-! ### The server -/

/-- "hello world!", which `EchoServer::new_connect` sends. -/
def EchoServer.greeting : Bytes := [104, 101, 108, 108, 111, 32, 119, 111, 114, 108, 100, 33]

/-- What must not happen to the server. -/
inductive EchoFault where
  /-- `pbuf` is `NULL`. -/
  | null
  /-- `pbuf[size]` lies behind the allocation. -/
  | overrun
  /-- `Buffer::has_read`. -/
  | hasRead
deriving DecidableEq, Repr

/-- A connection of the server. Next to its write buffer stands the account of what
`TcpStream::send` has queued and what has been sent; `received` is everything that `::recv`
has returned. -/
structure EchoStream where
  preadBuf : Buffer
  pwriteBuf : Ledger
  received : Bytes
  closing : Bool := false
  closed : Bool := false

/-- A dispatch of the connection. -/
inductive EchoEvent where
  /-- READ; `fresh` is what a new allocation of the write buffer holds. -/
  | read (d : ReadDispatch) (fresh : Nat → UInt8)
  /-- WRITE. -/
  | write (rets : List Socket.SendRet)

namespace EchoServer

abbrev Result := Except EchoFault EchoStream

/-- `TcpStream::send`. -/
def send (s : EchoStream) (p : Bytes) (fresh : Nat → UInt8) : EchoStream :=
  { s with pwriteBuf := (s.pwriteBuf.1.write p fresh, s.pwriteBuf.2.write p) }

/-- `EchoServer::new_connect`. -/
def newConnect : EchoStream :=
  send { preadBuf := Buffer.new, pwriteBuf := Ledger.init, received := [] } greeting fun _ => 0

/-- `pbuf[n] = c`, for a pointer into the allocation. -/
def setByte (v : CharVec) (p n : Nat) (c : UInt8) : Except EchoFault CharVec :=
  if p + n < v.capacity then
    .ok
      { mem := v.mem.set (p + n) c
        size := v.size
        size_le := by simpa using v.size_le }
  else
    .error .overrun

/-- `EchoServer::handle_read`. -/
def handleRead (s : EchoStream) (fresh : Nat → UInt8) : Result :=
  let size := s.preadBuf.readableSize
  match s.preadBuf.readAll with
  | (none, _) => .error .null
  | (some pbuf, b) => do
      let date ← setByte b.date pbuf size 0
      let b := { b with date := date }
      return send { s with preadBuf := b } (b.bytesAt pbuf size) fresh

/-- `TcpStream::close`; with nothing to send the connection goes at once. -/
def close (s : EchoStream) : EchoStream :=
  { s with closing := true, closed := s.pwriteBuf.1.readableSize = 0 }

/-- `TcpStream::handle_write`. -/
def handleWrite (s : EchoStream) (rets : List Socket.SendRet) : Result :=
  match s.pwriteBuf.1.send rets with
  | .error _ => .error .hasRead
  | .ok out =>
      let sent := s.pwriteBuf.1.readableSize - out.pbuf.readableSize
      let s := { s with pwriteBuf := (out.pbuf, s.pwriteBuf.2.consume sent) }
      if (out.error.map Errno.fatal).getD false then .ok (close s)
      else if out.pbuf.readableSize ≤ 0 ∧ s.closing then .ok (close s)
      else .ok s

/-- `Handle::handle_event` for one event: `TcpStream::handle_read` or `handle_write`. A
connection that is gone is not dispatched any more. -/
def dispatch (s : EchoStream) (e : EchoEvent) : Result :=
  if s.closed then .ok s
  else
    match e with
    | .read d fresh =>
        let s := { s with
          preadBuf := s.preadBuf.recvInto d.blocks
          received := s.received ++ Buffer.bytes d.blocks }
        if d.last.ends then .ok (close s) else handleRead s fresh
    | .write rets => handleWrite s rets

variable {s : EchoStream} {d : ReadDispatch} {fresh : Nat → UInt8}

/-- What is queued is the greeting, and everything received, and what has not been sent of it
is what the write buffer holds. -/
def Echoed (s : EchoStream) : Prop :=
  s.pwriteBuf.Fifo ∧ s.pwriteBuf.2.written = greeting ++ s.received

/-- Where the connection ends, it ends without a byte; otherwise there are bytes, none of which
is lost in the read buffer, with room behind them, and none of what is queued is lost when they
are queued. -/
def SafeRead (s : EchoStream) (d : ReadDispatch) : Prop :=
  if d.last.ends then Buffer.bytes d.blocks = []
  else
    Buffer.bytes d.blocks ≠ [] ∧ s.preadBuf.KeepsAll d.blocks ∧
      (s.preadBuf.recvInto d.blocks).endIdx < (s.preadBuf.recvInto d.blocks).date.capacity ∧
      (s.pwriteBuf.1.Resizes (Buffer.bytes d.blocks).length → s.pwriteBuf.1.ZeroPastSize)

/-- The dispatches that the connection survives as it should. -/
def Safe (s : EchoStream) : EchoEvent → Prop
  | .read d _ => s.closed = false → SafeRead s d
  | .write _ => True

/-- Between two dispatches nothing is left to read. -/
structure Between (s : EchoStream) : Prop where
  wf : s.preadBuf.Wf
  empty : s.preadBuf.readable = []
  pwriteBuf : s.pwriteBuf.Inv
  echoed : Echoed s

theorem between_newConnect : Between newConnect := by
  have hinv : Ledger.Inv (Buffer.new, History.empty) := Ledger.inv_init
  have hroom : ¬ Buffer.new.Resizes greeting.length := by
    intro hresizes
    apply hresizes.1
    rw [Buffer.writeableSize, Buffer.capacity_new]
    decide
  refine ⟨Buffer.wf_new, ?_, Ledger.inv_write hinv _ _, ?_, rfl⟩
  · simp [newConnect, send, Buffer.readable, Buffer.bytesAt, Buffer.readableSize, Buffer.new]
  · exact (Ledger.fifo_write_iff hinv rfl greeting fun _ => 0).mpr fun hr => absurd hr hroom

/-- The zero lies behind the readable bytes. -/
theorem bytesAt_set {b : Buffer} (wf : b.Wf) (mem : CharVec)
    (hmem : mem.mem = b.date.mem.set b.endIdx 0) :
    Buffer.bytesAt { b.clear with date := mem } b.startIdx b.readableSize = b.readable := by
  have hstart := wf.start_le
  apply List.ext_getElem?
  intro i
  simp only [Buffer.readable, Buffer.bytesAt, Buffer.getBuf, Buffer.readableSize, hmem]
  by_cases hi : i < b.endIdx - b.startIdx
  · rw [List.getElem?_take_of_lt hi, List.getElem?_take_of_lt hi, List.getElem?_drop,
      List.getElem?_drop, List.getElem?_set_ne (by omega)]
  · rw [List.getElem?_take_eq_none (not_lt.mp hi), List.getElem?_take_eq_none (not_lt.mp hi)]

/-- With something to read and room behind it, all of it is queued. -/
theorem handleRead_eq (fresh : Nat → UInt8) (wf : s.preadBuf.Wf)
    (hsize : s.preadBuf.readableSize ≠ 0)
    (hroom : s.preadBuf.endIdx < s.preadBuf.date.capacity) :
    ∃ b : Buffer, b.Wf ∧ b.readable = [] ∧
      handleRead s fresh = .ok (send { s with preadBuf := b } s.preadBuf.readable fresh) := by
  have hstart := wf.start_le
  have hzero : s.preadBuf.startIdx + s.preadBuf.readableSize = s.preadBuf.endIdx := by
    simp only [Buffer.readableSize]
    omega
  let date : CharVec :=
    { mem := s.preadBuf.date.mem.set s.preadBuf.endIdx 0
      size := s.preadBuf.date.size
      size_le := by simpa using s.preadBuf.date.size_le }
  refine ⟨{ s.preadBuf.clear with date := date }, ⟨Nat.le_refl _, Nat.zero_le _⟩, ?_, ?_⟩
  · simp [Buffer.readable, Buffer.bytesAt, Buffer.readableSize, Buffer.clear]
  · have hset : setByte s.preadBuf.clear.date s.preadBuf.startIdx s.preadBuf.readableSize 0 =
        .ok date := by
      have hroom' : s.preadBuf.endIdx < s.preadBuf.clear.date.capacity := hroom
      simp only [setByte, hzero, if_pos hroom']
      rfl
    simp only [handleRead, Buffer.readAll, Nat.le_zero, if_neg hsize, Buffer.getBuf, hset, ok_bind,
      bytesAt_set wf date rfl]
    rfl

theorem handleRead_null (hsize : s.preadBuf.readableSize = 0) :
    handleRead s fresh = .error .null := by
  simp only [handleRead, Buffer.readAll, Nat.le_zero, if_pos hsize]

theorem handleRead_overrun (wf : s.preadBuf.Wf) (hsize : s.preadBuf.readableSize ≠ 0)
    (hfull : ¬ s.preadBuf.endIdx < s.preadBuf.date.capacity) :
    handleRead s fresh = .error .overrun := by
  have hstart := wf.start_le
  have hset : setByte s.preadBuf.clear.date s.preadBuf.startIdx s.preadBuf.readableSize 0 =
      .error .overrun := by
    have hzero : s.preadBuf.startIdx + s.preadBuf.readableSize = s.preadBuf.endIdx := by
      simp only [Buffer.readableSize]
      omega
    have hfull' : ¬ s.preadBuf.endIdx < s.preadBuf.clear.date.capacity := hfull
    simp only [setByte, hzero, if_neg hfull']
  simp only [handleRead, Buffer.readAll, Nat.le_zero, if_neg hsize, Buffer.getBuf, hset, error_bind]

/-! ### Dispatches -/

/-- What one receive loop leaves readable. -/
theorem Between.received (h : Between s) (blocks : List Block) :
    (s.preadBuf.recvInto blocks).Wf ∧
      ((s.preadBuf.recvInto blocks).readable = Buffer.bytes blocks ↔
        s.preadBuf.KeepsAll blocks) ∧
      (s.preadBuf.recvInto blocks).readableSize = (Buffer.bytes blocks).length := by
  have hnone : s.preadBuf.readableSize = 0 := by
    rw [← Buffer.length_readable h.wf, h.empty, List.length_nil]
  refine ⟨Buffer.wf_recvInto h.wf blocks, ?_, ?_⟩
  · rw [← Buffer.receives_iff h.wf, Buffer.Receives, h.empty, List.nil_append]
  · rw [Buffer.readableSize_recvInto h.wf, hnone, Nat.zero_add]

/-- Queueing what was read echoes what was received if both are the same and the write buffer
keeps what it holds. -/
theorem Between.echoed_send_iff (h : Between s) (b : Buffer) (fresh : Nat → UInt8)
    {p data : Bytes} (hlength : p.length = data.length) :
    Echoed (send { s with preadBuf := b, received := s.received ++ data } p fresh) ↔
      p = data ∧ (s.pwriteBuf.1.Resizes data.length → s.pwriteBuf.1.ZeroPastSize) := by
  obtain ⟨hfifo, hwritten⟩ := h.echoed
  have hsame : s.pwriteBuf.2.written ++ p = greeting ++ (s.received ++ data) ↔ p = data := by
    rw [hwritten, ← List.append_assoc, List.append_cancel_left_eq]
  have hkeeps := Ledger.fifo_write_iff h.pwriteBuf hfifo p fresh
  simp only [Ledger.Keeps, hlength] at hkeeps
  rw [and_comm, ← hkeeps, ← hsame]
  exact Iff.rfl

/-- A dispatch of data echoes it if it is safe, and faults or echoes something else if not. -/
theorem Between.handleRead (h : Between s) (hends : d.last.ends = false) :
    (SafeRead s d → Ensures (EchoServer.handleRead { s with
        preadBuf := s.preadBuf.recvInto d.blocks
        received := s.received ++ Buffer.bytes d.blocks } fresh) Between fun _ => False) ∧
      (¬ SafeRead s d → ¬ Ensures (EchoServer.handleRead { s with
        preadBuf := s.preadBuf.recvInto d.blocks
        received := s.received ++ Buffer.bytes d.blocks } fresh) Echoed fun _ => False) := by
  obtain ⟨hwf, hreadable, hsize⟩ := h.received d.blocks
  simp only [SafeRead, hends, Bool.false_eq_true, if_false]
  by_cases hbytes : Buffer.bytes d.blocks = []
  · refine ⟨fun hsafe => absurd hbytes hsafe.1, fun _ => ?_⟩
    rw [handleRead_null (by rw [hsize, hbytes]; rfl)]
    exact id
  · have hne : (s.preadBuf.recvInto d.blocks).readableSize ≠ 0 := by
      rw [hsize]
      exact mt List.length_eq_zero_iff.mp hbytes
    by_cases hroom : (s.preadBuf.recvInto d.blocks).endIdx <
        (s.preadBuf.recvInto d.blocks).date.capacity
    · obtain ⟨b, hb, hempty, heq⟩ := handleRead_eq (s := { s with
        preadBuf := s.preadBuf.recvInto d.blocks
        received := s.received ++ Buffer.bytes d.blocks }) fresh hwf hne hroom
      have hlength : (s.preadBuf.recvInto d.blocks).readable.length =
          (Buffer.bytes d.blocks).length := by rw [Buffer.length_readable hwf, hsize]
      have hechoed := h.echoed_send_iff b fresh hlength
      rw [hreadable] at hechoed
      rw [heq]
      constructor
      · rintro ⟨-, hkeeps, -, hpwrite⟩
        exact ⟨hb, hempty, Ledger.inv_write h.pwriteBuf _ _, hechoed.mpr ⟨hkeeps, hpwrite⟩⟩
      · intro hsafe hqueued
        obtain ⟨hkeeps, hpwrite⟩ := hechoed.mp hqueued
        exact hsafe ⟨hbytes, hkeeps, hroom, hpwrite⟩
    · rw [handleRead_overrun hwf hne hroom]
      exact ⟨fun hsafe => absurd hsafe.2.2.1 hroom, fun _ => id⟩

theorem Between.close (h : Between s) : Between (close s) :=
  ⟨h.wf, h.empty, h.pwriteBuf, h.echoed⟩

/-- What has been sent was queued. -/
theorem Between.handleWrite (h : Between s) (rets : List Socket.SendRet) :
    Ensures (EchoServer.handleWrite s rets) Between fun _ => False := by
  obtain ⟨out, n, hsend, hn, hpbuf, -⟩ := Buffer.send_spec h.pwriteBuf.wf rets
  obtain ⟨hfifo, hwritten⟩ := h.echoed
  have hcount : s.pwriteBuf.1.readableSize - out.pbuf.readableSize = n := by
    have hstart := h.pwriteBuf.wf.start_le
    simp only [hpbuf, Buffer.readableSize] at hn ⊢
    omega
  have hsent : Between { s with pwriteBuf := (out.pbuf, s.pwriteBuf.2.consume
      (s.pwriteBuf.1.readableSize - out.pbuf.readableSize)) } := by
    rw [hcount, hpbuf]
    exact ⟨h.wf, h.empty, Ledger.inv_advance h.pwriteBuf hn, Ledger.fifo_advance hfifo, hwritten⟩
  simp only [EchoServer.handleWrite, hsend]
  split
  · exact hsent.close
  · split
    · exact hsent.close
    · exact hsent

/-- A safe dispatch echoes what it received. -/
theorem Between.dispatch (h : Between s) {e : EchoEvent} (hsafe : Safe s e) :
    Ensures (EchoServer.dispatch s e) Between fun _ => False := by
  simp only [EchoServer.dispatch]
  split
  · exact h
  · rename_i hopen
    cases e with
    | write rets => exact h.handleWrite rets
    | read d fresh =>
      have hread : SafeRead s d := hsafe (by simpa using hopen)
      dsimp only
      by_cases hends : d.last.ends = true
      · obtain ⟨hwf, -, hsize⟩ := h.received d.blocks
        rw [SafeRead, if_pos hends] at hread
        rw [if_pos hends]
        refine Between.close ⟨hwf, ?_, h.pwriteBuf, ?_⟩
        · apply List.eq_nil_of_length_eq_zero
          rw [Buffer.length_readable hwf]
          exact hsize.trans (by rw [hread]; rfl)
        · rw [hread, Echoed, List.append_nil]
          exact h.echoed
      · rw [if_neg hends]
        exact (h.handleRead (by simpa using hends)).1 hread

/-- Any other dispatch faults, or queues something else. -/
theorem Between.dispatch_unsafe (h : Between s) {e : EchoEvent} (hsafe : ¬ Safe s e) :
    ¬ Ensures (EchoServer.dispatch s e) Echoed fun _ => False := by
  cases e with
  | write rets => exact absurd trivial hsafe
  | read d fresh =>
    obtain ⟨hopen, hread⟩ := Classical.not_imp.mp hsafe
    rw [EchoServer.dispatch, if_neg (by simp [hopen])]
    dsimp only
    by_cases hends : d.last.ends = true
    · rw [SafeRead, if_pos hends] at hread
      rw [if_pos hends]
      rintro ⟨-, hlost⟩
      have hwritten := h.echoed.2
      simp only [EchoServer.close, hwritten, List.append_cancel_left_eq] at hlost
      exact hread (List.append_right_eq_self.mp hlost.symm)
    · rw [if_neg hends]
      exact (h.handleRead (by simpa using hends)).2 hread

/-- **The server echoes all it receives and touches only its own bytes**, after every beginning
of a sequence of dispatches, if and only if every dispatch is safe. -/
theorem echo_iff (es : List EchoEvent) :
    (∀ pre, pre <+: es →
      Ensures (exec EchoServer.dispatch newConnect pre) Echoed fun _ => False) ↔
    Every EchoServer.dispatch Safe newConnect es :=
  prefixes_iff_every (G := fun _ => Echoed) (I := fun _ => Between)
    (fun _ _ _ h hsafe => h.dispatch hsafe) (fun _ _ _ h hsafe => h.dispatch_unsafe hsafe)
    (fun _ _ h => h.echoed) [] between_newConnect

/-- A wake-up without data. -/
theorem echo_nothing :
    ¬ ∀ es : List EchoEvent, ∀ pre, pre <+: es →
      Ensures (exec EchoServer.dispatch newConnect pre) Echoed fun _ => False := by
  intro h
  exact h [.read ⟨[], .error .EAGAIN⟩ fun _ => 0] _ List.prefix_rfl

/-- A first dispatch that fills the buffer. -/
theorem echo_full {block : Block} (hlen : block.1.length = Buffer.BUFFER_SIZE) :
    EchoServer.dispatch newConnect (.read ⟨[block], .error .EAGAIN⟩ fresh) = .error .overrun := by
  have hroom : Buffer.new.makeWriteSpace block.1.length block.2 = Buffer.new := by
    apply Buffer.makeWriteSpace_of_room
    rw [hlen, Buffer.writeableSize, Buffer.capacity_new]
    exact Nat.le_refl _
  have hsize := Buffer.readableSize_write Buffer.wf_new block.1 block.2
  have hcap := Buffer.capacity_write Buffer.new block.1 block.2
  have hend : (Buffer.new.write block.1 block.2).endIdx = Buffer.BUFFER_SIZE := by
    have hidx := congrArg Buffer.endIdx hroom
    have hwrite : (Buffer.new.write block.1 block.2).endIdx =
        (Buffer.new.makeWriteSpace block.1.length block.2).endIdx + block.1.length := rfl
    rw [hwrite, hidx, hlen]
    exact Nat.zero_add _
  rw [hroom, Buffer.capacity_new] at hcap
  refine handleRead_overrun (s := { newConnect with preadBuf := _, received := _ })
    (Buffer.write_wf Buffer.wf_new _ _) ?_ ?_
  · change (Buffer.new.write block.1 block.2).readableSize ≠ 0
    rw [hsize, hlen]
    exact Nat.succ_ne_zero _
  · change ¬ (Buffer.new.write block.1 block.2).endIdx <
      (Buffer.new.write block.1 block.2).date.capacity
    rw [hend, hcap]
    exact lt_irrefl _

end EchoServer

end MixServer
