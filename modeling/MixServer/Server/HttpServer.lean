import MixServer.Server.LifeCycle

/-!
`HttpServer` and `httpHandle` (`server/httpserver.cpp`), over the script side
that `script/httphandle.py` keeps of each connection.

A connection is read line by line until its script sets `reading_line` to
False, and as messages from then on. What a handler object of the script does in
`handle_line` and `handle_message` is a `Script`; the dictionary of handlers and
the closing of a connection are the shipped ones.
-/

namespace MixServer.Server

open Lib Net
open Function (update)

/-- The fields `HttpServer` adds: the keys of `handles`, and of the dictionary
`handles` of the script. -/
structure HttpHandles where
  handles : Finset Nat := ∅
  pyHandles : Finset Nat := ∅
deriving DecidableEq

namespace HttpServer

/-- `py_handle_close`: the script's handler closes the connection unless
`closed` reads True, and is then forgotten. -/
def pyHandleClose (a : Nat) : Method HttpHandles := fun w =>
  if a ∈ w.ext.pyHandles then
    let w := w.log (.pyHandleClose a)
    if (w.senders a).all (·.getClosed a w) then
      .ok { w with ext := { w.ext with pyHandles := w.ext.pyHandles.erase a } }
    else
      w.abort .reentrantClose
  else
    .ok w

/-- `HttpServer::close_connect`. -/
def closeConnect (a : Nat) : Method HttpHandles := fun w => do
  let w ← TcpServer.closeConnect a w
  if a ∈ w.ext.handles then
    let w ← pyHandleClose a w
    return { w with ext := { w.ext with handles := w.ext.handles.erase a } }
  else
    w.abort .closeConnectHandles

/-- The constructor of `httpHandle`: a sender for the connection is made, and
`py_new_connect` makes the handler that reads its lines. -/
def makeHandle (a : Nat) (w : TcpServer HttpHandles) : TcpServer HttpHandles :=
  { w.log (.pyNewConnect a) with
    senders := update w.senders a (some {})
    ext := { handles := insert a w.ext.handles, pyHandles := insert a w.ext.pyHandles } }

variable (script : Script)

/-- A call into the script's handler of connection `a`, logged as `o`. Without a
handler the call raises `KeyError`, which `call_py_obj` prints. -/
def callHandler (a : Nat) (o : Obs) : Method HttpHandles := fun w =>
  if a ∈ w.ext.pyHandles then script.call closeConnect (w.log o) else .ok w

/-- The loop of `httpHandle::handle_read` in line mode, with a bound on its
turns. -/
def lineLoop (a : Nat) : Nat → Method HttpHandles
  | 0 => .ok
  | turns + 1 => fun w =>
      match findCRLF (w.heap a).preadBuf with
      | none => .ok w
      | some idx => do
          let line := (w.heap a).preadBuf.take idx
          let w := w.modify a fun s => { s with preadBuf := s.preadBuf.drop (idx + 2) }
          let w ← callHandler script a (.handleLine a line) w
          lineLoop a turns w

/-- `httpHandle::handle_read`: the mode is looked at once, before the loop. Each
turn reads at least two bytes. -/
def httpHandleRead (a : Nat) : Method HttpHandles := fun w =>
  if (w.senders a).any (·.readingLine) then
    lineLoop script a (w.heap a).preadBuf.length w
  else if (w.heap a).preadBuf = [] then
    w.abort .emptyMessage
  else
    callHandler script a (.handleMessage a (w.heap a).preadBuf)
      (w.modify a fun s => { s with preadBuf := [] })

/-- `HttpServer::handle_read`. -/
def handleRead (a : Nat) : Method HttpHandles := fun w =>
  if a ∈ w.streams then
    httpHandleRead script a (if a ∈ w.ext.handles then w else makeHandle a w)
  else
    w.abort .handleReadStreams

end HttpServer

/-- The virtual methods of `HttpServer`. -/
def httpServer (script : Script) : ServerClass HttpHandles where
  newConnect := TcpServer.newConnect
  handleRead := HttpServer.handleRead script
  closeConnect := HttpServer.closeConnect

end MixServer.Server
