import Mathlib.Data.Finset.Basic
import MixServer.Net.EventLoop

/-!
`TcpServer`, `TcpStream` and `Acceptor` (`server/tcpserver.cpp`,
`server/handles.cpp`), with `Handle::handle_event` and the `pySender` object a
script holds of a connection.

A `TcpServer ε` is the whole state between two steps; `ε` are the fields a
subclass adds, and `ServerClass` its virtual methods. Stream objects are
numbered by their connection id: `new_connect` makes each with a fresh one and
nothing changes it. The buffers are taken at their readable bytes
(`MixServer.Net.Buffer` is about the memory below them). A step either leads to
the next state or aborts the process at an assertion; both keep the trace of
what was done so far.
-/

namespace MixServer.Server

open Lib Net
open Function (update)

/-- What the server does, in order: the methods it runs and what it hands over. -/
inductive Obs where
  /-- `TcpStream::handle_read`. -/
  | handleRead (a : Nat)
  /-- `TcpStream::handle_write`. -/
  | handleWrite (a : Nat)
  /-- `recv` failed with this `errno`. -/
  | recvError (a : Nat) (e : Errno)
  /-- `send` failed with this `errno`. -/
  | sendError (a : Nat) (e : Errno)
  /-- `TcpServer::close_connect`. -/
  | closeConnect (a : Nat)
  /-- `MsgServer::handle_msg`, with the data of the message. -/
  | handleMsg (a : Nat) (data : Bytes)
  /-- `py_handle_line`. -/
  | handleLine (a : Nat) (s : Bytes)
  /-- `py_handle_message`. -/
  | handleMessage (a : Nat) (s : Bytes)
  /-- `py_new_connect`. -/
  | pyNewConnect (a : Nat)
  /-- `py_handle_close`. -/
  | pyHandleClose (a : Nat)
deriving DecidableEq, Repr

/-- The process has aborted: the assertion, and what was done before it. -/
structure Crash where
  cause : Abort
  trace : List Obs
deriving DecidableEq, Repr

/-- A `TcpStream` object, with the fields of its `Handle` base. -/
structure TcpStream where
  fd : Nat := 0
  events : Events := {}
  revents : Events := {}
  preadBuf : Bytes := []
  pwriteBuf : Bytes := []
  closed : Bool := false
  closing : Bool := false
deriving DecidableEq, Repr

/-- The fields of a `pySender` besides its stream. -/
structure PySender where
  closed : Bool := false
  readingLine : Bool := true
deriving DecidableEq, Repr

/-- The state of a server: `streams` holds the keys of the map of that name,
`heap` every stream object ever made, `senders` the `pySender` made for it. -/
structure TcpServer (ε : Type) where
  streams : Finset Nat
  maxConnectId : Nat
  ploop : EventLoop
  heap : Nat → TcpStream
  senders : Nat → Option PySender
  trace : List Obs
  ext : ε

/-- A method, as what it does to the state. -/
abbrev Method (ε : Type) := TcpServer ε → Except Crash (TcpServer ε)

/-- The virtual methods of `TcpServer`. `newConnect` takes the accepted
descriptor and whether `getpeername` succeeds on it. -/
structure ServerClass (ε : Type) where
  newConnect : Nat → Bool → Method ε
  handleRead : Nat → Method ε
  closeConnect : Nat → Method ε

variable {ε : Type}

namespace TcpServer

def log (o : Obs) (w : TcpServer ε) : TcpServer ε := { w with trace := w.trace ++ [o] }

def modify (a : Nat) (f : TcpStream → TcpStream) (w : TcpServer ε) : TcpServer ε :=
  { w with heap := update w.heap a (f (w.heap a)) }

def abort (c : Abort) (w : TcpServer ε) : Except Crash (TcpServer ε) := .error ⟨c, w.trace⟩

/-- Calls a method of `ploop`. -/
def onLoop (f : EventLoop → Except Abort EventLoop) : Method ε := fun w =>
  match f w.ploop with
  | .ok l => .ok { w with ploop := l }
  | .error c => w.abort c

/-- The server after `bind`: only the acceptor, on descriptor `fd`, is registered. -/
def bind (fd : Nat) (ext : ε) : TcpServer ε where
  streams := ∅
  maxConnectId := 0
  ploop :=
    { select_ := update (fun _ => none) fd (some { read := true, error := true })
      handles := update (fun _ => none) fd (some .acceptor) }
  heap := fun _ => {}
  senders := fun _ => none
  trace := []
  ext := ext

/-- `EventLoop::update_event` on the handle of stream `a`. -/
def updateEvent (a : Nat) : Method ε := fun w =>
  w.onLoop fun l => l.updateEvent (w.heap a).fd (w.heap a).events

/-- `EventLoop::unregist_handle` on the handle of stream `a`; no event of it is
handled any more. -/
def unregistHandle (a : Nat) : Method ε := fun w => do
  let w ← w.onLoop fun l => l.unregistHandle (w.heap a).fd
  return w.modify a fun s => { s with revents := {} }

/-- `TcpServer::new_connect`. -/
def newConnect (fd : Nat) (peer : Bool) : Method ε := fun w =>
  let id := w.maxConnectId + 1
  let w := { w with maxConnectId := id }
  if peer then do
    let w := w.modify id fun _ => { fd := fd, events := { read := true, error := true } }
    let w ← w.onLoop fun l => l.registHandle fd (w.heap id).events (.stream id)
    return { w with streams := insert id w.streams }
  else
    w.abort .getpeername

/-- `TcpServer::close_connect`. -/
def closeConnect (a : Nat) : Method ε := fun w => do
  let w := w.log (.closeConnect a)
  if a ∈ w.streams then
    let w ← w.unregistHandle a
    return { w with streams := w.streams.erase a }
  else
    w.abort .closeConnectStreams

end TcpServer

/-! ### `TcpStream` -/

namespace TcpStream

open TcpServer (log modify updateEvent)

/-- `Handle::enable_event(WRITE)`. -/
def enableWrite (a : Nat) : Method ε := fun w =>
  updateEvent a (w.modify a fun s => { s with events := { s.events with write := true } })

/-- `Handle::disable_event(WRITE)`. -/
def disableWrite (a : Nat) : Method ε := fun w =>
  updateEvent a (w.modify a fun s => { s with events := { s.events with write := false } })

/-- `TcpStream::send`. -/
def send (a : Nat) (p : Bytes) : Method ε := fun w =>
  enableWrite a (w.modify a fun s => { s with pwriteBuf := s.pwriteBuf ++ p })

/-- `TcpStream::close`; `closeConnect` is the server's virtual method. -/
def close (closeConnect : Nat → Method ε) (a : Nat) : Method ε := fun w => do
  let w := w.modify a fun s => { s with closing := true }
  if (w.heap a).pwriteBuf = [] then
    let w ← closeConnect a w
    return w.modify a fun s => { s with closed := true }
  else
    return w

/-- `TcpStream::handle_read`. -/
def handleRead (C : ServerClass ε) (rets : Socket.RecvRets) (a : Nat) : Method ε := fun w =>
  let w := w.log (.handleRead a)
  let (pbuf, n) := Socket.recv (w.heap a).preadBuf rets
  let w := w.modify a fun s => { s with preadBuf := pbuf }
  match n with
  | .eof => close C.closeConnect a w
  | .error e =>
      if e.fatal then close C.closeConnect a (w.log (.recvError a e)) else C.handleRead a w

/-- The end of `TcpStream::handle_write`, when no fatal error was returned. -/
def afterWrite (C : ServerClass ε) (a : Nat) : Method ε := fun w => do
  if (w.heap a).pwriteBuf = [] then
    let w ← disableWrite a w
    if (w.heap a).closing then close C.closeConnect a w else return w
  else
    return w

/-- `TcpStream::handle_write`. -/
def handleWrite (C : ServerClass ε) (rets : List Socket.SendRet) (a : Nat) : Method ε := fun w =>
  let w := w.log (.handleWrite a)
  let out := Socket.send (w.heap a).pwriteBuf rets
  let w := w.modify a fun s => { s with pwriteBuf := out.pbuf }
  match out.error with
  | none => afterWrite C a w
  | some e =>
      if e.fatal then close C.closeConnect a (w.log (.sendError a e)) else afterWrite C a w

end TcpStream

/-! ### The event loop's steps -/

/-- What `::accept` and then `getpeername` return. -/
inductive AcceptRet where
  | error
  | conn (fd : Nat) (peer : Bool)
deriving DecidableEq, Repr

/-- The kernel's answers to the calls one dispatch can make. -/
structure Io where
  recv : Socket.RecvRets
  send : List Socket.SendRet
  accept : AcceptRet
deriving DecidableEq, Repr

/-- `Handle::handle_event` of a `TcpStream`: `revents` is read again before each
bit. Its `handle_error` only logs. -/
def TcpStream.handleEvent (C : ServerClass ε) (io : Io) (a : Nat) : Method ε := fun w => do
  let w ← (if (w.heap a).revents.read then TcpStream.handleRead C io.recv a w else .ok w)
  if (w.heap a).revents.write then TcpStream.handleWrite C io.send a w else .ok w

/-- `Acceptor::handle_read`. -/
def Acceptor.handleRead (C : ServerClass ε) (ret : AcceptRet) : Method ε := fun w =>
  match ret with
  | .error => w.abort .accept
  | .conn fd peer => C.newConnect fd peer w

/-- One entry of `EventLoop::do_select`. -/
def doSelect (C : ServerClass ε) (fd : Nat) (events : Events) (io : Io) : Method ε := fun w =>
  match w.ploop.handles fd with
  | none => w.abort .doSelect
  | some .acceptor => if events.read then Acceptor.handleRead C io.accept w else .ok w
  | some (.stream a) =>
      TcpStream.handleEvent C io a (w.modify a fun s => { s with revents := events })

/-! ### The script -/

/-- What a script does to a connection through its `pySender`. -/
inductive Action where
  | send (a : Nat) (p : Bytes)
  | close (a : Nat)
  | setReadingLine (a : Nat) (value : Bool)
deriving DecidableEq, Repr

namespace PySender

/-- `pySender::get_closed`. -/
def getClosed (a : Nat) (s : PySender) (w : TcpServer ε) : Bool :=
  s.closed || (w.heap a).closing || (w.heap a).closed

/-- Changes the fields of the sender of `a`. -/
def modify (a : Nat) (f : PySender → PySender) (w : TcpServer ε) : TcpServer ε :=
  { w with senders := update w.senders a ((w.senders a).map f) }

/-- `pySender::close`. -/
def close (closeConnect : Nat → Method ε) (a : Nat) : Method ε := fun w => do
  let w ← TcpStream.close closeConnect a w
  return modify a (fun s => { s with closed := true }) w

end PySender

/-- One action of a script that keeps the rules of the shipped one: it acts
through a sender it was given, writes to connections that are in `streams`, and
closes only when `closed` reads `False`. -/
def Action.perform (closeConnect : Nat → Method ε) (w : TcpServer ε) :
    Action → Except Crash (TcpServer ε)
  | .send a p =>
      if (w.senders a).isSome ∧ a ∈ w.streams then TcpStream.send a p w else .ok w
  | .close a =>
      match w.senders a with
      | none => .ok w
      | some s => if s.getClosed a w then .ok w else PySender.close closeConnect a w
  | .setReadingLine a value =>
      .ok (PySender.modify a (fun s => { s with readingLine := value }) w)

/-- A script decides from everything that has happened. -/
abbrev Script := List Obs → List Action

/-- One call into the script. -/
def Script.call (script : Script) (closeConnect : Nat → Method ε) : Method ε := fun w =>
  exec (Action.perform closeConnect) w (script w.trace)

/-! ### Runs -/

/-- What makes the server move: an active descriptor, or a timer of the script. -/
inductive Event where
  | select (fd : Nat) (events : Events) (io : Io)
  | timer (actions : List Action)
deriving DecidableEq, Repr

/-- One step of the loop. -/
def step (C : ServerClass ε) (w : TcpServer ε) : Event → Except Crash (TcpServer ε)
  | .select fd events io => doSelect C fd events io w
  | .timer actions => exec (Action.perform C.closeConnect) w actions

/-- A server whose script is called at every connect and every read: the
subclasses of the repository, as far as connections are concerned. -/
def scripted (script : Script) : ServerClass Unit where
  newConnect fd peer := fun w => do
    let w ← TcpServer.newConnect fd peer w
    script.call TcpServer.closeConnect
      { w with senders := update w.senders w.maxConnectId (some {}) }
  handleRead _ := script.call TcpServer.closeConnect
  closeConnect := TcpServer.closeConnect

end MixServer.Server
