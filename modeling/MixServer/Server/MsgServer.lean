import MixServer.Net.Msg
import MixServer.Server.LifeCycle

/-!
`MsgServer` (`server/msgserver.cpp`): length-prefixed messages on each
connection.

Each connection has a `Msg` that is filled over many reads and handed to
`handle_msg` when it is complete. What `handle_msg` does with it is a `Handler`.
-/

namespace MixServer.Server

open Lib Net
open Function (update)

/-- `MsgServer::conn_msgs`. -/
abbrev ConnMsgs := Nat → Option Msg

/-- What lies behind `MsgServer::handle_msg`: `onMsg` is what `Proto::on_msg`
leaves of `praw_data`, or the assertion that fails in it; `replies` are the
messages its handlers then send. -/
structure Handler where
  onMsg : Nat → Bytes → Except Abort Bytes
  replies : List Obs → List (Nat × Bytes)

/-- What `ProtoMsg::read_ids` reads: the service id, the command id and the rest of
`praw_data`. Where it stores the ids is `ProtoMsg.readIdsIn`. -/
def ProtoMsg.readIds (prawData : Bytes) : Except Abort (Int × Int × Bytes) :=
  if 8 < prawData.length then
    .ok (readInt prawData, readInt (prawData.drop 4), prawData.drop 8)
  else
    .error .readIds

namespace MsgServer

/-- The message of connection `a`; `handle_read` makes it when it is missing. -/
def msg (a : Nat) (w : TcpServer ConnMsgs) : Msg := (w.ext a).getD {}

def setMsg (a : Nat) (pmsg : Msg) (w : TcpServer ConnMsgs) : TcpServer ConnMsgs :=
  { w with ext := update w.ext a (some pmsg) }

/-- `MsgServer::send_msg` of a reply to a client that is still connected. -/
def sendMsg (w : TcpServer ConnMsgs) (reply : Nat × Bytes) :
    Except Crash (TcpServer ConnMsgs) :=
  if reply.1 ∈ w.streams then TcpStream.send reply.1 reply.2 w else .ok w

/-- `MsgServer::handle_msg`. -/
def handleMsg (H : Handler) (a : Nat) : Method ConnMsgs := fun w =>
  let w := w.log (.handleMsg a (msg a w).prawData)
  match H.onMsg a (msg a w).prawData with
  | .error c => w.abort c
  | .ok praw => exec sendMsg (setMsg a { msg a w with prawData := praw } w) (H.replies w.trace)

/-- `MsgServer::handle_read`, with a bound on the depth of its recursion. -/
def handleReadN (H : Handler) (a : Nat) : Nat → Method ConnMsgs
  | 0 => .ok
  | depth + 1 => fun w =>
      if a ∈ w.streams then
        match fill (msg a w) (w.heap a).preadBuf with
        | .error c => w.abort c
        | .ok (pmsg, pbuf, complete) => do
            let w := setMsg a pmsg (w.modify a fun s => { s with preadBuf := pbuf })
            if complete then
              let w ← handleMsg H a w
              let w := setMsg a (msg a w).clear w
              if 4 ≤ (w.heap a).preadBuf.length then handleReadN H a depth w else return w
            else
              return w
      else
        w.abort .handleReadStreams

/-- `MsgServer::handle_read`: every recursive call has read at least one byte. -/
def handleRead (H : Handler) (a : Nat) : Method ConnMsgs := fun w =>
  handleReadN H a ((w.heap a).preadBuf.length + 1) w

end MsgServer

/-- The virtual methods of `MsgServer`. -/
def msgServer (H : Handler) : ServerClass ConnMsgs where
  newConnect := TcpServer.newConnect
  handleRead := MsgServer.handleRead H
  closeConnect := TcpServer.closeConnect

end MixServer.Server
