import MixServer.Net.WriteString
import MixServer.Server.ReadMemory

/-!
The servers over the memory of both buffers of their connections.

`Buffered` adds to a server the `Buffer`s behind each `pread_buf` and `pwrite_buf`, and
`preadBuf` and `pwriteBuf` of a stream are what can be read in them. What receives, sends or
queues is given again, with the calls of `Buffer` that the source makes; what only marks a
connection, registers it or takes it out of the tables is taken as it is (`Keeps`).

Beside the state stands the account `lost`: whether a write has ever left in its buffer
anything but what could be read before, followed by what was written.
-/

namespace MixServer.Server

open Lib Net
open Function (update)

variable {ε : Type}

/-! ### The memory -/

/-- A server, and the memory of the buffers of its connections. -/
structure Buffered (ε : Type) where
  server : TcpServer ε
  pread : Nat → Buffer
  pwrite : Nat → Buffer
  lost : Bool := false

/-- A method, as what it does to the server and the buffers. -/
abbrev BufferedMethod (ε : Type) := Buffered ε → Except Crash (Buffered ε)

/-- The virtual methods of a server; those of `base` touch no buffer. -/
structure BufferedClass (ε : Type) where
  base : ServerClass ε
  handleRead : Nat → BufferedMethod ε

namespace Buffered

/-- The server after `bind`. -/
def bind (fd : Nat) (ext : ε) : Buffered ε where
  server := TcpServer.bind fd ext
  pread := fun _ => Buffer.new
  pwrite := fun _ => Buffer.new

def log (o : Obs) (m : Buffered ε) : Buffered ε := { m with server := m.server.log o }

/-- Calls a method that touches no buffer. -/
def lift (f : Method ε) : BufferedMethod ε := fun m =>
  (f m.server).map fun w => { m with server := w }

/-- Stores the read buffer of connection `a`. -/
def setPread (a : Nat) (pbuf : Buffer) (m : Buffered ε) : Buffered ε :=
  { m with
    server := m.server.modify a fun s => { s with preadBuf := pbuf.readable }
    pread := update m.pread a pbuf }

/-- Stores the write buffer of connection `a`. -/
def setPwrite (a : Nat) (pbuf : Buffer) (m : Buffered ε) : Buffered ε :=
  { m with
    server := m.server.modify a fun s => { s with pwriteBuf := pbuf.readable }
    pwrite := update m.pwrite a pbuf }

/-- Notes whether a write into `pbuf` of the bytes `p` has left `pbuf'`, as it should. -/
def account (pbuf : Buffer) (p : Bytes) (pbuf' : Buffer) (m : Buffered ε) : Buffered ε :=
  { m with lost := m.lost || pbuf'.readable ≠ pbuf.readable ++ p }

/-- A connection is accepted, and gets new buffers. -/
def newConnect (C : BufferedClass ε) (fd : Nat) (peer : Bool) : BufferedMethod ε := fun m => do
  let m ← m.lift (C.base.newConnect fd peer)
  return { m with
    pread := update m.pread m.server.maxConnectId Buffer.new
    pwrite := update m.pwrite m.server.maxConnectId Buffer.new }

end Buffered

open Buffered (lift setPread setPwrite account)

/-! ### `TcpStream` -/

namespace BufferedTcpStream

/-- `TcpStream::send`. -/
def send (alloc : Buffered ε → Nat → UInt8) (a : Nat) (p : Bytes) : BufferedMethod ε := fun m =>
  match (m.pwrite a).writeString p (alloc m) with
  | .error _ => .error ⟨.bufferWrite, m.server.trace⟩
  | .ok pbuf =>
      let m := m.account (m.pwrite a) p pbuf
      (m.setPwrite a pbuf).lift (TcpStream.enableWrite a)

/-- `TcpStream::handle_read`. -/
def handleRead (C : BufferedClass ε) (d : ReadDispatch) (a : Nat) : BufferedMethod ε := fun m =>
  let m := m.log (.handleRead a)
  let pbuf := (m.pread a).recvInto d.blocks
  let m := m.account (m.pread a) (Buffer.bytes d.blocks) pbuf
  let m := m.setPread a pbuf
  match d.last with
  | .eof => m.lift (TcpStream.close C.base.closeConnect a)
  | .error e =>
      if e.fatal then (m.log (.recvError a e)).lift (TcpStream.close C.base.closeConnect a)
      else C.handleRead a m

/-- `TcpStream::handle_write`. -/
def handleWrite (C : BufferedClass ε) (rets : List Socket.SendRet) (a : Nat) :
    BufferedMethod ε := fun m =>
  let m := m.log (.handleWrite a)
  match (m.pwrite a).send rets with
  | .error _ => .error ⟨.hasRead, m.server.trace⟩
  | .ok out =>
      let m := m.setPwrite a out.pbuf
      match out.error with
      | none => m.lift (TcpStream.afterWrite C.base a)
      | some e =>
          if e.fatal then (m.log (.sendError a e)).lift (TcpStream.close C.base.closeConnect a)
          else m.lift (TcpStream.afterWrite C.base a)

end BufferedTcpStream

/-! ### The event loop's steps -/

/-- The kernel's answers to the calls one dispatch can make, with the memory for them. -/
structure BufferedIo where
  recv : ReadDispatch
  send : List Socket.SendRet
  accept : AcceptRet

/-- `Handle::handle_event` of a `TcpStream`. -/
def BufferedTcpStream.handleEvent (C : BufferedClass ε) (io : BufferedIo) (a : Nat) :
    BufferedMethod ε := fun m => do
  let m ← (if (m.server.heap a).revents.read then BufferedTcpStream.handleRead C io.recv a m
    else .ok m)
  if (m.server.heap a).revents.write then BufferedTcpStream.handleWrite C io.send a m else .ok m

/-- `Acceptor::handle_read`. -/
def BufferedAcceptor.handleRead (C : BufferedClass ε) (ret : AcceptRet) : BufferedMethod ε :=
  fun m =>
    match ret with
    | .error => .error ⟨.accept, m.server.trace⟩
    | .conn fd peer => Buffered.newConnect C fd peer m

namespace Buffered

/-- One entry of `EventLoop::do_select`. -/
def doSelect (C : BufferedClass ε) (fd : Nat) (events : Events) (io : BufferedIo) :
    BufferedMethod ε := fun m =>
  match m.server.ploop.handles fd with
  | none => .error ⟨.doSelect, m.server.trace⟩
  | some .acceptor => if events.read then BufferedAcceptor.handleRead C io.accept m else .ok m
  | some (.stream a) =>
      BufferedTcpStream.handleEvent C io a
        { m with server := m.server.modify a fun s => { s with revents := events } }

variable (alloc : Buffered ε → Nat → UInt8)

/-- One action of a script. -/
def perform (closeConnect : Nat → Method ε) (m : Buffered ε) : Action → Except Crash (Buffered ε)
  | .send a p =>
      if (m.server.senders a).isSome ∧ a ∈ m.server.streams then
        BufferedTcpStream.send alloc a p m
      else .ok m
  | act => m.lift fun w => act.perform closeConnect w

/-- One call into the script. -/
def call (closeConnect : Nat → Method ε) (script : Script) : BufferedMethod ε := fun m =>
  exec (perform alloc closeConnect) m (script m.server.trace)

/-- What makes the server move. -/
inductive Event where
  | select (fd : Nat) (events : Events) (io : BufferedIo)
  | timer (actions : List Action)

/-- One step of the loop. -/
def step (C : BufferedClass ε) (m : Buffered ε) : Event → Except Crash (Buffered ε)
  | .select fd events io => doSelect C fd events io m
  | .timer actions => exec (perform alloc C.base.closeConnect) m actions

end Buffered

/-! ### `MsgServer` -/

namespace BufferedMsgServer

variable (alloc : Buffered ConnMsgs → Nat → UInt8) (H : Handler)

def setMsg (a : Nat) (pmsg : Msg) (m : Buffered ConnMsgs) : Buffered ConnMsgs :=
  { m with server := MsgServer.setMsg a pmsg m.server }

/-- `MsgServer::send_msg` of a reply to a client that is still connected. -/
def sendMsg (m : Buffered ConnMsgs) (reply : Nat × Bytes) : Except Crash (Buffered ConnMsgs) :=
  if reply.1 ∈ m.server.streams then BufferedTcpStream.send alloc reply.1 reply.2 m else .ok m

/-- `MsgServer::handle_msg`. -/
def handleMsg (a : Nat) : BufferedMethod ConnMsgs := fun m =>
  let m := m.log (.handleMsg a (MsgServer.msg a m.server).prawData)
  match H.onMsg a (MsgServer.msg a m.server).prawData with
  | .error c => .error ⟨c, m.server.trace⟩
  | .ok praw =>
      exec (sendMsg alloc) (setMsg a { MsgServer.msg a m.server with prawData := praw } m)
        (H.replies m.server.trace)

/-- `MsgServer::handle_read`, with a bound on the depth of its recursion. -/
def handleReadN (a : Nat) : Nat → BufferedMethod ConnMsgs
  | 0 => .ok
  | depth + 1 => fun m =>
      if a ∈ m.server.streams then
        match fillFrom (MsgServer.msg a m.server) (m.pread a) with
        | .error c => .error ⟨c, m.server.trace⟩
        | .ok (pmsg, pbuf, complete) => do
            let m := setMsg a pmsg (m.setPread a pbuf)
            if complete then
              let m ← handleMsg alloc H a m
              let m := setMsg a (MsgServer.msg a m.server).clear m
              if 4 ≤ (m.pread a).readableSize then handleReadN a depth m else return m
            else
              return m
      else
        .error ⟨.handleReadStreams, m.server.trace⟩

/-- `MsgServer::handle_read`: every recursive call has read at least one byte. -/
def handleRead (a : Nat) : BufferedMethod ConnMsgs := fun m =>
  handleReadN alloc H a ((m.pread a).readableSize + 1) m

end BufferedMsgServer

/-- The virtual methods of `MsgServer`. -/
def bufferedMsgServer (alloc : Buffered ConnMsgs → Nat → UInt8) (H : Handler) :
    BufferedClass ConnMsgs where
  base := msgServer H
  handleRead := BufferedMsgServer.handleRead alloc H

/-! ### `HttpServer` -/

namespace BufferedHttpServer

variable (alloc : Buffered HttpHandles → Nat → UInt8) (script : Script)

/-- A call into the script's handler of connection `a`, logged as `o`. -/
def callHandler (a : Nat) (o : Obs) : BufferedMethod HttpHandles := fun m =>
  if a ∈ m.server.ext.pyHandles then
    Buffered.call alloc HttpServer.closeConnect script (m.log o)
  else .ok m

/-- The loop of `httpHandle::handle_read` in line mode, with a bound on its turns. -/
def lineLoop (a : Nat) : Nat → BufferedMethod HttpHandles
  | 0 => .ok
  | turns + 1 => fun m =>
      match findCRLF (m.pread a).readable with
      | none => .ok m
      | some idx => do
          let (p, pbuf) := (m.pread a).readBytes (idx + 2)
          let m ← callHandler alloc script a (.handleLine a (p.take idx)) (m.setPread a pbuf)
          lineLoop a turns m

/-- `httpHandle::handle_read`. -/
def httpHandleRead (a : Nat) : BufferedMethod HttpHandles := fun m =>
  if (m.server.senders a).any (·.readingLine) then
    lineLoop alloc script a (m.pread a).readableSize m
  else if (m.pread a).readableSize = 0 then
    .error ⟨.emptyMessage, m.server.trace⟩
  else
    let (p, pbuf) := (m.pread a).readAllBytes
    callHandler alloc script a (.handleMessage a p) (m.setPread a pbuf)

/-- `HttpServer::handle_read`. -/
def handleRead (a : Nat) : BufferedMethod HttpHandles := fun m =>
  if a ∈ m.server.streams then
    httpHandleRead alloc script a
      (if a ∈ m.server.ext.handles then m
        else { m with server := HttpServer.makeHandle a m.server })
  else
    .error ⟨.handleReadStreams, m.server.trace⟩

end BufferedHttpServer

/-- The virtual methods of `HttpServer`. -/
def bufferedHttpServer (alloc : Buffered HttpHandles → Nat → UInt8) (script : Script) :
    BufferedClass HttpHandles where
  base := httpServer script
  handleRead := BufferedHttpServer.handleRead alloc script

end MixServer.Server
