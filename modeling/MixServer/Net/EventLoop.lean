import Mathlib.Logic.Function.Basic
import MixServer.Net.Socket

/-!
The tables of `EventLoop` (`net/eventloop.cpp`) and of the selector below it.

Both selectors the build can choose keep one entry for each registered file
descriptor and abort on the same misuse: adding a descriptor that is present,
updating or removing one that is not (`Poll` by its own assertions, `Epoll`
because `epoll_ctl` fails and its result is asserted).
-/

namespace MixServer.Net

open Function (update)

/-- The assertions that can end the process, by the function they stand in. -/
inductive Abort where
  /-- `Poll::add_handle`, `Epoll::epoll_ctl`: the descriptor is registered already. -/
  | addHandle
  /-- `Poll::update_event`, `Epoll::epoll_ctl`: no such descriptor. -/
  | updateEvent
  /-- `Poll::rm_handle`, `Epoll::epoll_ctl`: no such descriptor. -/
  | rmHandle
  /-- `EventLoop::do_select`: no handle for an active descriptor. -/
  | doSelect
  /-- `Socket::accept`: `fd!=-1`. -/
  | accept
  /-- `Socket::Socket(fd)`: `getpeername` failed. -/
  | getpeername
  /-- `TcpServer::close_connect`: the connection is not in `streams`. -/
  | closeConnectStreams
  /-- `HttpServer::close_connect`: the connection is not in `handles`. -/
  | closeConnectHandles
  /-- `MsgServer::handle_read`, `HttpServer::handle_read`: not in `streams`. -/
  | handleReadStreams
  /-- `httpHandle::handle_read` in message mode: `n>0`. -/
  | emptyMessage
  /-- `Msg::try_write`: `_len>0`. -/
  | tryWrite
  /-- `Client::on_msg`: `pmsg->len > 0`. -/
  | onMsgLen
  /-- `ProtoMsg::read_ids`: `praw_data->size()>2*sizeof(int)`. -/
  | readIds
  /-- `ProtoMsg::read_ids`: it stores an id outside the object it is called on. -/
  | readIdsStore
  /-- The script closes a connection again from within `py_handle_close`. -/
  | reentrantClose
  /-- `MsgServer::send_msg`: `pmsg->len > 0`. -/
  | sendMsgLen
  /-- `MsgServer::send_msg`: `pstream`. -/
  | sendMsgStream
  /-- `Buffer::read_int`: `readable_size()>=4`. -/
  | readInt
  /-- `Buffer::has_read`: `start_idx+n<=end_idx`. -/
  | hasRead
  /-- `Buffer::write`: a copy leaves the allocation, or a sum the `int`s. -/
  | bufferWrite
deriving DecidableEq, Repr

/-- The bits `READ`, `WRITE` and `ERROR` of `enum EVENT`, the ones
`from_poll_event` and `from_epoll_event` produce. -/
structure Events where
  read : Bool := false
  write : Bool := false
  error : Bool := false
deriving DecidableEq, Repr

/-- A `Handle` the loop can dispatch to: the acceptor, or the `TcpStream` with
the given connection id. -/
inductive HandleRef where
  | acceptor
  | stream (a : Nat)
deriving DecidableEq, Repr

/-- The selector's table of interests and the loop's table of handles, both by
file descriptor. -/
structure EventLoop where
  select_ : Nat → Option Events
  handles : Nat → Option HandleRef

namespace EventLoop

def empty : EventLoop := ⟨fun _ => none, fun _ => none⟩

/-- `EventLoop::regist_handle`. -/
def registHandle (l : EventLoop) (fd : Nat) (events : Events) (p : HandleRef) :
    Except Abort EventLoop :=
  if (l.select_ fd).isSome then
    .error .addHandle
  else
    .ok { select_ := update l.select_ fd (some events), handles := update l.handles fd (some p) }

/-- `EventLoop::unregist_handle`, but for the handle's own `revents`. -/
def unregistHandle (l : EventLoop) (fd : Nat) : Except Abort EventLoop :=
  if (l.select_ fd).isSome then
    .ok { select_ := update l.select_ fd none, handles := update l.handles fd none }
  else
    .error .rmHandle

/-- `EventLoop::update_event`. -/
def updateEvent (l : EventLoop) (fd : Nat) (events : Events) : Except Abort EventLoop :=
  if (l.select_ fd).isSome then
    .ok { l with select_ := update l.select_ fd (some events) }
  else
    .error .updateEvent

end EventLoop

end MixServer.Net
