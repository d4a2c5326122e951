import MixServer.Net.Transfer
import MixServer.Server.HttpReads
import MixServer.Server.MsgServer

/-!
The servers over the memory of their read buffers.

`OnMemory` adds to a server the `Buffer` behind each `pread_buf`; `preadBuf` of a stream is
what can be read in it. The methods that read are given again, with the calls of `Buffer` that
the source makes; the others leave the read buffers alone (`Keeps`) and are taken as they
are. `readable_views` says that a READ dispatch which loses no byte does what the server without
memory does.

A write buffer stays at its readable bytes: reading depends on it only through whether it is
empty, which a lost byte does not change.
-/

namespace MixServer.Server

open Lib Net
open Function (update)

variable {ε : Type} {w w' w'' : TcpServer ε}

/-! ### Methods that leave a buffer alone -/

/-- A buffer of a stream: no flag and no interest is part of it. -/
structure IsBuffer (buf : TcpStream → Bytes) : Prop where
  events : ∀ s e, buf { s with events := e } = buf s
  revents : ∀ s e, buf { s with revents := e } = buf s
  closing : ∀ s v, buf { s with closing := v } = buf s
  closed : ∀ s v, buf { s with closed := v } = buf s

theorem isBuffer_preadBuf : IsBuffer TcpStream.preadBuf :=
  ⟨fun _ _ => rfl, fun _ _ => rfl, fun _ _ => rfl, fun _ _ => rfl⟩

theorem isBuffer_pwriteBuf : IsBuffer TcpStream.pwriteBuf :=
  ⟨fun _ _ => rfl, fun _ _ => rfl, fun _ _ => rfl, fun _ _ => rfl⟩

variable {buf : TcpStream → Bytes}

/-- That buffer of each stream is the same. -/
def Same (buf : TcpStream → Bytes) (w w' : TcpServer ε) : Prop :=
  ∀ b, buf (w'.heap b) = buf (w.heap b)

theorem Same.refl (w : TcpServer ε) : Same buf w w := fun _ => rfl

theorem Same.trans (h : Same buf w w') (h' : Same buf w' w'') : Same buf w w'' :=
  fun b => (h' b).trans (h b)

theorem same_modify {f : TcpStream → TcpStream} (hf : ∀ s, buf (f s) = buf s) (a : Nat) :
    Same buf w (w.modify a f) := by
  intro b
  rw [TcpServer.modify_heap]
  split
  · rename_i hb
    subst hb
    exact hf _
  · rfl

/-- The method leaves that buffer of each stream alone. -/
def Keeps (buf : TcpStream → Bytes) (f : Method ε) : Prop :=
  ∀ w, Ensures (f w) (Same buf w) fun _ => True

theorem Same.keeps {r : Except Crash (TcpServer ε)} (h : Same buf w w')
    (hr : Ensures r (Same buf w') fun _ => True) : Ensures r (Same buf w) fun _ => True :=
  hr.mono (fun _ => h.trans) fun _ => id

theorem Keeps.bind {r : Except Crash (TcpServer ε)} {f : Method ε}
    (hr : Ensures r (Same buf w) fun _ => True) (hf : Keeps buf f) :
    Ensures (r >>= f) (Same buf w) fun _ => True :=
  hr.bind fun w' h => h.keeps (hf w')

theorem keeps_exec {α : Type} {f : TcpServer ε → α → Except Crash (TcpServer ε)}
    (hf : ∀ e, Keeps buf fun w => f w e) (es : List α) : Keeps buf fun w => exec f w es := by
  intro w
  exact exec_ensures (fun w' e h => h.keeps (hf e w')) (.refl w) es

theorem keeps_onLoop (f : EventLoop → Except Abort EventLoop) :
    Keeps buf (TcpServer.onLoop (ε := ε) f) := by
  intro w
  unfold TcpServer.onLoop
  split
  · exact .refl w
  · trivial

section IsBuffer

variable (hbuf : IsBuffer buf)

include hbuf

theorem keeps_enableWrite (a : Nat) : Keeps buf (TcpStream.enableWrite (ε := ε) a) := by
  intro w
  unfold TcpStream.enableWrite TcpServer.updateEvent
  exact (same_modify (fun s => hbuf.events s _) a).keeps (keeps_onLoop _ _)

theorem keeps_disableWrite (a : Nat) : Keeps buf (TcpStream.disableWrite (ε := ε) a) := by
  intro w
  unfold TcpStream.disableWrite TcpServer.updateEvent
  exact (same_modify (fun s => hbuf.events s _) a).keeps (keeps_onLoop _ _)

theorem keeps_closeConnect (a : Nat) : Keeps buf (TcpServer.closeConnect (ε := ε) a) := by
  intro w
  unfold TcpServer.closeConnect TcpServer.unregistHandle
  dsimp only
  split
  · refine Keeps.bind (Keeps.bind (keeps_onLoop _ _) ?_) fun w' => ?_
    · exact fun w' => same_modify (fun s => hbuf.revents s _) a
    · exact Same.refl w'
  · trivial

theorem HttpServer.keeps_closeConnect (a : Nat) : Keeps buf (HttpServer.closeConnect a) := by
  intro w
  unfold HttpServer.closeConnect
  refine Keeps.bind (Server.keeps_closeConnect hbuf a w) fun w1 => ?_
  dsimp only
  split
  · refine Keeps.bind ?_ fun w2 => Same.refl w2
    unfold HttpServer.pyHandleClose
    split
    · dsimp only
      split
      · exact Same.refl w1
      · trivial
    · exact Same.refl w1
  · trivial

theorem keeps_close {closeConnect : Nat → Method ε} (h : ∀ a, Keeps buf (closeConnect a))
    (a : Nat) : Keeps buf (TcpStream.close closeConnect a) := by
  intro w
  have hmark : Same buf w (w.modify a fun s => { s with closing := true }) :=
    same_modify (fun s => hbuf.closing s _) a
  unfold TcpStream.close
  dsimp only
  split
  · refine Keeps.bind (hmark.keeps (h a _)) fun w' => ?_
    exact same_modify (fun s => hbuf.closed s _) a
  · exact hmark

theorem keeps_afterWrite {C : ServerClass ε} (h : ∀ a, Keeps buf (C.closeConnect a)) (a : Nat) :
    Keeps buf (TcpStream.afterWrite C a) := by
  intro w
  unfold TcpStream.afterWrite
  split
  · refine Keeps.bind (keeps_disableWrite hbuf a w) fun w' => ?_
    split
    · exact keeps_close hbuf h a w'
    · exact .refl w'
  · exact .refl w

theorem keeps_performClose {closeConnect : Nat → Method ε} (h : ∀ a, Keeps buf (closeConnect a))
    (a : Nat) : Keeps buf fun w => Action.perform closeConnect w (.close a) := by
  intro w
  simp only [Action.perform]
  split
  · exact .refl w
  · split
    · exact .refl w
    · exact Keeps.bind (keeps_close hbuf h a w) fun w' => Same.refl w'

end IsBuffer

/-! Sending leaves what is read alone. -/

theorem keeps_send (a : Nat) (p : Bytes) :
    Keeps TcpStream.preadBuf (TcpStream.send (ε := ε) a p) := by
  intro w
  unfold TcpStream.send
  have hput : Same TcpStream.preadBuf w
      (w.modify a fun s => { s with pwriteBuf := s.pwriteBuf ++ p }) :=
    same_modify (by exact fun _ => rfl) a
  exact hput.keeps (keeps_enableWrite isBuffer_preadBuf a _)

section Closing

variable {closeConnect : Nat → Method ε}
  (h : ∀ a, Keeps TcpStream.preadBuf (closeConnect a))

include h

theorem keeps_perform (act : Action) :
    Keeps TcpStream.preadBuf fun w => Action.perform closeConnect w act := by
  intro w
  cases act with
  | send a p =>
      simp only [Action.perform]
      split
      · exact keeps_send a p w
      · exact .refl w
  | close a => exact keeps_performClose isBuffer_preadBuf h a w
  | setReadingLine a value => exact .refl w

theorem keeps_call (script : Script) :
    Keeps TcpStream.preadBuf (script.call closeConnect) := fun w =>
  keeps_exec (keeps_perform h) (script w.trace) w

end Closing

theorem MsgServer.keeps_handleMsg (H : Handler) (a : Nat) :
    Keeps TcpStream.preadBuf (MsgServer.handleMsg H a) := by
  intro w
  unfold MsgServer.handleMsg
  dsimp only
  split
  · trivial
  · refine Same.keeps ?_ (keeps_exec (fun reply w' => ?_) _ _)
    · exact fun _ => rfl
    · dsimp only [MsgServer.sendMsg]
      split
      · exact keeps_send _ _ w'
      · exact .refl w'

theorem HttpServer.keeps_callHandler (script : Script) (a : Nat) (o : Obs) :
    Keeps TcpStream.preadBuf (HttpServer.callHandler script a o) := by
  intro w
  unfold HttpServer.callHandler
  split
  · exact Same.keeps (fun _ => rfl)
      (keeps_call (HttpServer.keeps_closeConnect isBuffer_preadBuf) _ _)
  · exact .refl w

/-! ### The memory -/

/-- A server, and the memory of the read buffers of its connections. -/
structure OnMemory (ε : Type) where
  server : TcpServer ε
  pread : Nat → Buffer

/-- A method, as what it does to the server and the buffers. -/
abbrev MemMethod (ε : Type) := OnMemory ε → Except Crash (OnMemory ε)

/-- The virtual methods of a server. Only `handle_read` reads. -/
structure MemClass (ε : Type) where
  handleRead : Nat → MemMethod ε
  closeConnect : Nat → Method ε

namespace OnMemory

/-- Connections may have been accepted, with their buffers as `TcpStream::TcpStream` makes
them. -/
def fresh (w : TcpServer ε) : OnMemory ε := ⟨w, fun _ => Buffer.new⟩

/-- `preadBuf` of each stream is what can be read in its buffer. -/
def Sync (m : OnMemory ε) : Prop :=
  ∀ a, (m.pread a).Wf ∧ (m.server.heap a).preadBuf = (m.pread a).readable

/-- Calls a method that reads nothing. -/
def lift (f : Method ε) : MemMethod ε := fun m => (f m.server).map fun w => { m with server := w }

/-- Stores the buffer of connection `a`. -/
def setPread (a : Nat) (pbuf : Buffer) (m : OnMemory ε) : OnMemory ε where
  server := m.server.modify a fun s => { s with preadBuf := pbuf.readable }
  pread := update m.pread a pbuf

variable {m : OnMemory ε} {a : Nat}

theorem Sync.of_same (h : m.Sync) (hsame : Same TcpStream.preadBuf m.server w) :
    Sync { m with server := w } := by
  intro b
  obtain ⟨hwf, hbuf⟩ := h b
  exact ⟨hwf, (hsame b).trans hbuf⟩

theorem Sync.setPread (h : m.Sync) {pbuf : Buffer} (wf : pbuf.Wf) (a : Nat) :
    (m.setPread a pbuf).Sync := by
  intro b
  simp only [OnMemory.setPread, TcpServer.modify_heap, Function.update_apply]
  split
  · exact ⟨wf, rfl⟩
  · exact h b

theorem sync_fresh (h : ∀ a, (w.heap a).preadBuf = []) : (fresh w).Sync := by
  intro a
  refine ⟨Buffer.wf_new, (h a).trans ?_⟩
  exact (List.eq_nil_of_length_eq_zero (Buffer.length_readable Buffer.wf_new)).symm

/-- A method that reads nothing does to the server what it does without memory. -/
theorem lift_views {f : Method ε} (hf : Keeps TcpStream.preadBuf f) (h : m.Sync) :
    Views server Sync (m.lift f) (f m.server) := by
  have hkeeps := hf m.server
  unfold lift
  cases hr : f m.server with
  | error x => exact views_error x
  | ok w => exact ⟨rfl, h.of_same (hkeeps.of_ok hr)⟩

end OnMemory

open OnMemory (Sync)

/-- `TcpStream::handle_read`. -/
def MemTcpStream.handleRead (C : MemClass ε) (d : ReadDispatch) (a : Nat) : MemMethod ε := fun m =>
  let m := { m with server := m.server.log (.handleRead a) }
  let m := m.setPread a ((m.pread a).recvInto d.blocks)
  match d.last with
  | .eof => m.lift (TcpStream.close C.closeConnect a)
  | .error e =>
      if e.fatal then
        m.lift fun w => TcpStream.close C.closeConnect a (w.log (.recvError a e))
      else C.handleRead a m

/-! ### `MsgServer` -/

namespace MemMsgServer

/-- Stores the message of connection `a`. -/
def setMsg (a : Nat) (pmsg : Msg) (m : OnMemory ConnMsgs) : OnMemory ConnMsgs :=
  { m with server := MsgServer.setMsg a pmsg m.server }

/-- `MsgServer::handle_read`, with a bound on the depth of its recursion. -/
def handleReadN (H : Handler) (a : Nat) : Nat → MemMethod ConnMsgs
  | 0 => .ok
  | depth + 1 => fun m =>
      if a ∈ m.server.streams then
        match fillFrom (MsgServer.msg a m.server) (m.pread a) with
        | .error c => .error ⟨c, m.server.trace⟩
        | .ok (pmsg, pbuf, complete) => do
            let m := setMsg a pmsg (m.setPread a pbuf)
            if complete then
              let m ← m.lift (MsgServer.handleMsg H a)
              let m := setMsg a (MsgServer.msg a m.server).clear m
              if 4 ≤ (m.pread a).readableSize then handleReadN H a depth m else return m
            else
              return m
      else
        .error ⟨.handleReadStreams, m.server.trace⟩

/-- `MsgServer::handle_read`: every recursive call has read at least one byte. -/
def handleRead (H : Handler) (a : Nat) : MemMethod ConnMsgs := fun m =>
  handleReadN H a ((m.pread a).readableSize + 1) m

variable {H : Handler} {m : OnMemory ConnMsgs} {a : Nat}

theorem sync_setMsg (a : Nat) (pmsg : Msg) (h : m.Sync) : (setMsg a pmsg m).Sync :=
  h.of_same fun _ => rfl

theorem handleReadN_views (h : m.Sync) (depth : Nat) :
    Views OnMemory.server Sync (handleReadN H a depth m)
      (MsgServer.handleReadN H a depth m.server) := by
  induction depth generalizing m with
  | zero => exact ⟨rfl, h⟩
  | succ depth ih =>
    obtain ⟨hwf, hbuf⟩ := h a
    have hfill := fillFrom_spec (MsgServer.msg a m.server) hwf
    simp only [handleReadN, MsgServer.handleReadN]
    split
    · rw [hbuf]
      cases hr : fillFrom (MsgServer.msg a m.server) (m.pread a) with
      | error c =>
        rw [hfill.of_error hr]
        exact views_error _
      | ok r =>
        obtain ⟨pmsg, pbuf, complete⟩ := r
        obtain ⟨hpbuf, heq⟩ := hfill.of_ok hr
        have hstore := sync_setMsg a pmsg (h.setPread hpbuf a)
        rw [heq]
        dsimp only
        split
        · refine (OnMemory.lift_views (MsgServer.keeps_handleMsg H a) hstore).bind ?_
          intro m' h'
          have hclear := sync_setMsg a (MsgServer.msg a m'.server).clear h'
          have hsize : ((MsgServer.setMsg a (MsgServer.msg a m'.server).clear
              m'.server).heap a).preadBuf.length =
              ((setMsg a (MsgServer.msg a m'.server).clear m').pread a).readableSize :=
            (congrArg List.length (hclear a).2).trans (Buffer.length_readable (hclear a).1)
          rw [hsize]
          split
          · exact ih hclear
          · exact ⟨rfl, hclear⟩
        · exact ⟨rfl, hstore⟩
    · exact views_error _

theorem handleRead_views (h : m.Sync) :
    Views OnMemory.server Sync (handleRead H a m) (MsgServer.handleRead H a m.server) := by
  rw [handleRead, MsgServer.handleRead, (h a).2, Buffer.length_readable (h a).1]
  exact handleReadN_views h _

end MemMsgServer

/-- The virtual methods of `MsgServer`. -/
def memMsgServer (H : Handler) : MemClass ConnMsgs where
  handleRead := MemMsgServer.handleRead H
  closeConnect := TcpServer.closeConnect

/-! ### `HttpServer` -/

namespace MemHttpServer

variable (script : Script)

/-- The loop of `httpHandle::handle_read` in line mode, with a bound on its turns. -/
def lineLoop (a : Nat) : Nat → MemMethod HttpHandles
  | 0 => .ok
  | turns + 1 => fun m =>
      match findCRLF (m.pread a).readable with
      | none => .ok m
      | some idx => do
          let (p, pbuf) := (m.pread a).readBytes (idx + 2)
          let m := m.setPread a pbuf
          let m ← m.lift (HttpServer.callHandler script a (.handleLine a (p.take idx)))
          lineLoop a turns m

/-- `httpHandle::handle_read`. -/
def httpHandleRead (a : Nat) : MemMethod HttpHandles := fun m =>
  if (m.server.senders a).any (·.readingLine) then
    lineLoop script a (m.pread a).readableSize m
  else if (m.pread a).readableSize = 0 then
    .error ⟨.emptyMessage, m.server.trace⟩
  else
    let (p, pbuf) := (m.pread a).readAllBytes
    (m.setPread a pbuf).lift (HttpServer.callHandler script a (.handleMessage a p))

/-- `HttpServer::handle_read`. -/
def handleRead (a : Nat) : MemMethod HttpHandles := fun m =>
  if a ∈ m.server.streams then
    httpHandleRead script a
      (if a ∈ m.server.ext.handles then m
        else { m with server := HttpServer.makeHandle a m.server })
  else
    .error ⟨.handleReadStreams, m.server.trace⟩

variable {script} {m : OnMemory HttpHandles} {a : Nat}

theorem lineLoop_views (h : m.Sync) (turns : Nat) :
    Views OnMemory.server Sync (lineLoop script a turns m)
      (HttpServer.lineLoop script a turns m.server) := by
  induction turns generalizing m with
  | zero => exact ⟨rfl, h⟩
  | succ turns ih =>
    obtain ⟨hwf, hbuf⟩ := h a
    simp only [lineLoop, HttpServer.lineLoop, hbuf]
    cases hidx : findCRLF (m.pread a).readable with
    | none => exact ⟨rfl, h⟩
    | some idx =>
      have hlt := findCRLF_lt hidx
      rw [Buffer.length_readable hwf] at hlt
      obtain ⟨hline, hleft, hpbuf⟩ := Buffer.readBytes_spec hwf (n := idx + 2) (by omega)
      have hread := h.setPread hpbuf a
      have hserver : (m.setPread a ((m.pread a).readBytes (idx + 2)).2).server =
          m.server.modify a fun s => { s with preadBuf := s.preadBuf.drop (idx + 2) } := by
        simp only [OnMemory.setPread, hleft, ← hbuf, TcpServer.modify]
      have hprefix : ((m.pread a).readBytes (idx + 2)).1.take idx =
          (m.pread a).readable.take idx := by
        rw [hline, List.take_take, Nat.min_eq_left (by omega)]
      dsimp only
      rw [← hserver, ← hprefix]
      exact (OnMemory.lift_views (HttpServer.keeps_callHandler script a _) hread).bind
        fun m' h' => ih h'

theorem httpHandleRead_views (h : m.Sync) :
    Views OnMemory.server Sync (httpHandleRead script a m)
      (HttpServer.httpHandleRead script a m.server) := by
  obtain ⟨hwf, hbuf⟩ := h a
  have hlength := Buffer.length_readable hwf
  simp only [httpHandleRead, HttpServer.httpHandleRead, hbuf, hlength,
    ← List.length_eq_zero_iff]
  split
  · exact lineLoop_views h _
  · split
    · exact views_error _
    · obtain ⟨hall, hleft, hpbuf⟩ := Buffer.readAllBytes_spec hwf
      have hserver : (m.setPread a (m.pread a).readAllBytes.2).server =
          m.server.modify a fun s => { s with preadBuf := [] } := by
        rw [OnMemory.setPread, hleft]
      rw [← hserver, ← hall]
      exact OnMemory.lift_views (HttpServer.keeps_callHandler script a _)
        (h.setPread hpbuf a)

theorem handleRead_views (h : m.Sync) :
    Views OnMemory.server Sync (handleRead script a m)
      (HttpServer.handleRead script a m.server) := by
  simp only [handleRead, HttpServer.handleRead]
  split
  · split
    · exact httpHandleRead_views h
    · exact httpHandleRead_views (h.of_same fun _ => rfl)
  · exact views_error _

end MemHttpServer

/-- The virtual methods of `HttpServer`. -/
def memHttpServer (script : Script) : MemClass HttpHandles where
  handleRead := MemHttpServer.handleRead script
  closeConnect := HttpServer.closeConnect

/-! ### READ dispatches -/

/-- `C` does over the memory what `C'` does without it. -/
structure ViewsAs (C : MemClass ε) (C' : ServerClass ε) : Prop where
  handleRead : ∀ {m : OnMemory ε} (a : Nat), m.Sync →
    Views OnMemory.server Sync (C.handleRead a m) (C'.handleRead a m.server)
  closeConnect : C.closeConnect = C'.closeConnect
  keeps : ∀ a, Keeps TcpStream.preadBuf (C.closeConnect a)

theorem viewsAs_msgServer (H : Handler) : ViewsAs (memMsgServer H) (msgServer H) where
  handleRead _ h := MemMsgServer.handleRead_views h
  closeConnect := rfl
  keeps := keeps_closeConnect isBuffer_preadBuf

theorem viewsAs_httpServer (script : Script) :
    ViewsAs (memHttpServer script) (httpServer script) where
  handleRead _ h := MemHttpServer.handleRead_views h
  closeConnect := rfl
  keeps := HttpServer.keeps_closeConnect isBuffer_preadBuf

namespace OnMemory

variable {C : MemClass ε} {C' : ServerClass ε} {m : OnMemory ε} {a : Nat}

/-- The blocks have arrived in the buffer of connection `a`. -/
def received (a : Nat) (blocks : List Block) (m : OnMemory ε) : OnMemory ε :=
  setPread a ((m.pread a).recvInto blocks) { m with server := m.server.log (.handleRead a) }

@[simp] theorem received_pread_self (blocks : List Block) :
    (m.received a blocks).pread a = (m.pread a).recvInto blocks := Function.update_self ..

theorem Sync.received (h : m.Sync) (a : Nat) (blocks : List Block) :
    (m.received a blocks).Sync :=
  Sync.setPread (m := { m with server := m.server.log (.handleRead a) }) (h.of_same fun _ => rfl)
    (Buffer.wf_recvInto (h a).1 blocks) a

/-- If no byte is lost, the server sees what was sent. -/
theorem server_received (h : m.Sync) {blocks : List Block}
    (hkeeps : (m.pread a).KeepsAll blocks) :
    (m.received a blocks).server = m.server.received a (Buffer.bytes blocks) := by
  have hread := (Buffer.receives_iff (h a).1 blocks).mpr hkeeps
  rw [Buffer.Receives] at hread
  simp only [OnMemory.received, setPread, TcpServer.received, hread, ← (h a).2, TcpServer.modify,
    TcpServer.log_heap]

/-- **A READ dispatch.** If no byte is lost, the server does what it does without memory. -/
theorem handleRead_views (hC : ViewsAs C C') (h : m.Sync) {d : ReadDispatch}
    (hkeeps : (m.pread a).KeepsAll d.blocks) :
    Views server Sync (MemTcpStream.handleRead C d a m)
      (TcpStream.handleRead C' ⟨d.blocks.map Prod.fst, d.last⟩ a m.server) := by
  have hrecv := h.received a d.blocks
  have hserver := server_received h hkeeps
  rw [TcpStream.handleRead_eq]
  change Views server Sync (match d.last with
    | .eof => (m.received a d.blocks).lift (TcpStream.close C.closeConnect a)
    | .error e =>
        if e.fatal then
          (m.received a d.blocks).lift fun w =>
            TcpStream.close C.closeConnect a (w.log (.recvError a e))
        else C.handleRead a (m.received a d.blocks)) _
  rw [← hC.closeConnect, ← Buffer.bytes, ← hserver]
  cases d.last with
  | eof => exact lift_views (keeps_close isBuffer_preadBuf hC.keeps a) hrecv
  | error e =>
    dsimp only
    split
    · refine lift_views ?_ hrecv
      exact fun w => Same.keeps (fun _ => rfl) (keeps_close isBuffer_preadBuf hC.keeps a _)
    · exact hC.handleRead a hrecv

/-- A READ dispatch whose receive loop ends with `EAGAIN`. -/
def readable (C : MemClass ε) (m : OnMemory ε) (e : Nat × List Block) :
    Except Crash (OnMemory ε) :=
  MemTcpStream.handleRead C ⟨e.2, .error .EAGAIN⟩ e.1 m

theorem readable_eq (C : MemClass ε) (m : OnMemory ε) (e : Nat × List Block) :
    readable C m e = C.handleRead e.1 (m.received e.1 e.2) := by
  simp only [readable, MemTcpStream.handleRead, Errno.fatal]
  rfl

/-- What arrives in a dispatch. -/
def arrival (e : Nat × List Block) : Nat × Bytes := (e.1, Buffer.bytes e.2)

theorem readable_views (hC : ViewsAs C C') (h : m.Sync) {e : Nat × List Block}
    (hkeeps : (m.pread e.1).KeepsAll e.2) :
    Views server Sync (readable C m e) (Server.readable C' m.server (arrival e)) := by
  rw [readable_eq, Server.readable_eq, arrival, ← server_received h hkeeps]
  exact hC.handleRead e.1 (h.received e.1 e.2)

/-- A READ dispatch keeps the buffers in step, whatever it loses. -/
theorem readable_sync (hC : ViewsAs C C') (h : m.Sync) (e : Nat × List Block) :
    Ensures (readable C m e) Sync fun _ => True := by
  rw [readable_eq]
  exact (hC.handleRead e.1 (h.received e.1 e.2)).invariant

/-- No READ dispatch of connection `a` makes `pread_buf` reallocate while an unread byte other
than zero lies beyond `size()`. -/
def Lossless (C : MemClass ε) (a : Nat) (m : OnMemory ε) (dispatches : List (List Block)) : Prop :=
  Every (readable C) (fun m e => (m.pread e.1).KeepsAll e.2) m (dispatches.map fun d => (a, d))

/-- Each READ dispatch of connection `a` leaves in `pread_buf` what was unread, and what it
received. -/
def Intact (C : MemClass ε) (a : Nat) (m : OnMemory ε) (dispatches : List (List Block)) : Prop :=
  Every (readable C) (fun m e => (m.pread e.1).Receives e.2) m (dispatches.map fun d => (a, d))

theorem intact_iff (hC : ViewsAs C C') (h : m.Sync) (dispatches : List (List Block)) :
    Intact C a m dispatches ↔ Lossless C a m dispatches :=
  every_congr (fun _ e hm => readable_sync hC hm e)
    (fun _ e hm => Buffer.receives_iff (hm e.1).1 e.2) h

/-- A run of READ dispatches that loses no byte. -/
theorem Lossless.views (hC : ViewsAs C C') (h : m.Sync) {dispatches : List (List Block)}
    (hkeeps : Lossless C a m dispatches) :
    Views server Sync (exec (readable C) m (dispatches.map fun d => (a, d)))
      (exec (Server.readable C') m.server
        ((dispatches.map Buffer.bytes).map fun c => (a, c))) := by
  have hmap : ((dispatches.map Buffer.bytes).map fun c => (a, c)) =
      (dispatches.map fun d => (a, d)).map arrival := by
    simp only [List.map_map]
    rfl
  have hstep : ∀ (m : OnMemory ε) (e : Nat × List Block), m.Sync →
      (m.pread e.1).KeepsAll e.2 →
      Views server Sync (readable C m e) (Server.readable C' m.server (arrival e)) :=
    fun _ _ hm hL => readable_views hC hm hL
  rw [hmap]
  exact exec_views hstep h hkeeps

/-- What the server did. -/
def traceOf (r : Except Crash (OnMemory ε)) : List Obs := Server.traceOf (r.map server)

theorem traceOf_eq {r : Except Crash (OnMemory ε)} {r' : Except Crash (TcpServer ε)}
    (h : Views server Sync r r') : traceOf r = Server.traceOf r' := by
  rw [traceOf, h.map_eq]

end OnMemory

end MixServer.Server
