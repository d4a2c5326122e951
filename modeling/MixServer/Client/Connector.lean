import MixServer.Client.OnRead

/-!
`Connector` and `Client` (`client/connector.cpp`): a connection that is made,
lost and made again by a timer.

Each attempt makes a new `Connector` with buffers of its own, while the `Client`,
its half-read message, its retry count and its timer stay. A `ClientLoop` is the
client with its event loop, between two steps; a step is one event of the
connection's descriptor, one firing of the `_re_connect` timer, or a call of the
client's owner.
-/

namespace MixServer

open Lib Net

/-- `enum STATUS`. -/
inductive Status where
  | CLOSED
  | CONNECTING
  | CONNECTED
deriving DecidableEq, Repr

/-- The assertions that can end the client. -/
inductive ClientAbort where
  /-- Within `Client::on_read`. -/
  | reading (x : Abort)
  /-- `Connector::handle_read`, `Connector::handle_write`: the status is `CLOSED`. -/
  | handleClosed
  /-- `Client::_start_connect`: `status==CLOSED`. -/
  | startConnect
  /-- The selector does not know the descriptor. -/
  | select (x : Abort)
deriving DecidableEq, Repr

/-- What `::connect` on a non-blocking socket returns: 0, -1 with `EALREADY` or
`EINPROGRESS`, or -1 with another `errno`. -/
inductive ConnectRet where
  | zero
  | inProgress
  | error
deriving DecidableEq, Repr

/-- A `Connector`, with the fields of its `Handle` base; `registered` says whether
the loop knows it. -/
structure Connector where
  status : Status := .CLOSED
  preadBuf : Bytes := []
  pwriteBuf : Bytes := []
  events : Events := { read := true, write := true }
  revents : Events := {}
  registered : Bool := false
deriving DecidableEq, Repr

/-- What the client does, in order. -/
inductive ClientObs where
  /-- `_start_connect` makes a new `Connector`. -/
  | startConnect
  | onConnected
  /-- `::recv` returned these bytes. -/
  | received (data : Bytes)
  | onMsg (payload : Bytes)
  | onClose
deriving DecidableEq, Repr

/-- A `Client` with its loop: `timers` counts the pending `_re_connect` timers. -/
structure ClientLoop where
  pconn : Connector := {}
  pmsg : Msg := {}
  status : Status := .CLOSED
  retryCount : Nat := 0
  timers : Nat := 0
  shutdown : Bool := false
  trace : List ClientObs := []
deriving DecidableEq, Repr

/-- The kernel's answers in one dispatch: whether `recv(0)` succeeds, the receive
loop, `SO_ERROR`, and the send loop. -/
structure ClientIo where
  probe : Bool
  recv : Socket.RecvRets
  soError : Nat
  send : List Socket.SendRet
deriving DecidableEq, Repr

/-- What makes the client move. -/
inductive ClientEvent where
  /-- The selector reports the connection's descriptor. -/
  | select (events : Events) (io : ClientIo)
  /-- A `_re_connect` timer fires; `ret` is for the `::connect` it may call. -/
  | timer (ret : ConnectRet)
  /-- `Client::send_msg`. -/
  | send (p : Bytes)
  /-- `Client::close`. -/
  | close
deriving DecidableEq, Repr

namespace ClientLoop

abbrev Result := Except ClientAbort ClientLoop

/-- `Client::max_retry_cout`. -/
def maxRetryCout : Nat := 10

variable (c : ClientLoop)

def log (o : ClientObs) : ClientLoop := { c with trace := c.trace ++ [o] }

/-! ### `Client` -/

/-- `EventLoop::update_event` of the connector, whose events become `events`. -/
def updateEvent (events : Events) : Result :=
  if c.pconn.registered then
    .ok { c with pconn := { c.pconn with events := events } }
  else
    .error (.select .updateEvent)

/-- `Connector::send`. -/
def send (p : Bytes) : Result :=
  let c := { c with pconn := { c.pconn with pwriteBuf := c.pconn.pwriteBuf ++ p } }
  c.updateEvent { c.pconn.events with write := true }

/-- `Client::on_connected`; `hello` is what it sends first. -/
def onConnected (hello : Bytes) : Result :=
  { c.log .onConnected with retryCount := 0, status := .CONNECTED }.send hello

/-- `Client::on_close`. -/
def onClose : Result :=
  if c.pconn.registered then
    let c := { c.log .onClose with
      pconn := { c.pconn with registered := false, revents := {} }
      status := .CLOSED }
    if maxRetryCout < c.retryCount then .ok { c with shutdown := true } else .ok c
  else
    .error (.select .rmHandle)

/-- `Connector::close`. -/
def closeConn : Result := { c with pconn := { c.pconn with status := .CLOSED } }.onClose

/-- `Client::_start_connect`. The connector registers a fresh descriptor; where
`::connect` returns 0 its status stays `CLOSED`. -/
def startConnect_ (ret : ConnectRet) : Result :=
  if c.status = .CLOSED then
    let c := { c.log .startConnect with pconn := {} }
    match ret with
    | .error => .ok c
    | .zero => .ok { c with
        pconn := { registered := true }
        status := .CONNECTING
        retryCount := c.retryCount + 1 }
    | .inProgress => .ok { c with
        pconn := { status := .CONNECTING, registered := true }
        status := .CONNECTING
        retryCount := c.retryCount + 1 }
  else
    .error .startConnect

/-- `Client::_re_connect`, called by one of the pending timers, which is then
removed. -/
def reConnect (ret : ConnectRet) : Result :=
  let c := { c with timers := c.timers - 1 }
  if maxRetryCout < c.retryCount then
    .ok c
  else if c.status = .CONNECTED then
    .ok c
  else do
    let c ← if c.status = .CONNECTING then c.closeConn else .ok c
    let c ← if c.status = .CLOSED then c.startConnect_ ret else .ok c
    return { c with timers := c.timers + 1 }

variable (proto : Bytes → Except Abort Bytes)

/-- `Client::on_read`, on the connector's read buffer. What the handlers of the
messages send is left to `ClientEvent.send`. -/
def onRead : Result :=
  match Client.onRead proto { preadBuf := c.pconn.preadBuf, pmsg := c.pmsg } with
  | .error x => .error (.reading x)
  | .ok r => .ok { c with
      pconn := { c.pconn with preadBuf := r.preadBuf }
      pmsg := r.pmsg
      trace := c.trace ++ r.handled.map .onMsg }

/-! ### `Connector` -/

/-- `Connector::handle_read`. -/
def handleRead (io : ClientIo) : Result :=
  match c.pconn.status with
  | .CLOSED => .error .handleClosed
  | .CONNECTING => if io.probe then .ok c else c.closeConn
  | .CONNECTED =>
      let (pbuf, n) := Socket.recv c.pconn.preadBuf io.recv
      let c := { c.log (.received io.recv.chunks.flatten) with
        pconn := { c.pconn with preadBuf := pbuf } }
      if n.ends then c.closeConn else c.onRead proto

variable (hello : Bytes)

/-- `Connector::handle_write`. -/
def handleWrite (io : ClientIo) : Result :=
  match c.pconn.status with
  | .CLOSED => .error .handleClosed
  | .CONNECTING =>
      if io.soError = 0 then do
        let c := { c with pconn := { c.pconn with status := .CONNECTED } }
        let c ← c.updateEvent { c.pconn.events with write := false }
        c.onConnected hello
      else
        c.closeConn
  | .CONNECTED =>
      let out := Socket.send c.pconn.pwriteBuf io.send
      let c := { c with pconn := { c.pconn with pwriteBuf := out.pbuf } }
      if (out.error.map Errno.fatal).getD false then
        c.closeConn
      else if out.pbuf = [] then
        c.updateEvent { c.pconn.events with write := false }
      else
        .ok c

/-- One entry of `EventLoop::do_select`: `handle_event` of the connector, which
reads `revents` again before each bit. The selector only reports a registered
descriptor. -/
def doSelect (events : Events) (io : ClientIo) : Result :=
  if c.pconn.registered then do
    let c := { c with pconn := { c.pconn with revents := events } }
    let c ← if c.pconn.revents.read then c.handleRead proto io else .ok c
    if c.pconn.revents.write then c.handleWrite hello io else .ok c
  else
    .ok c

variable {c proto hello} in
/-- The rule of a dispatch, with what holds between `handle_read` and `handle_write`. -/
theorem doSelect_ensures {I J : ClientLoop → Prop} {E : ClientAbort → Prop} {events : Events}
    {io : ClientIo} (hidle : I c)
    (hset : c.pconn.registered = true → J { c with pconn := { c.pconn with revents := events } })
    (hread : c.pconn.registered = true → events.read = true → Ensures
      ({ c with pconn := { c.pconn with revents := events } }.handleRead proto io) J E)
    (hwrite : ∀ c', J c' → c'.pconn.revents.write = true → Ensures (c'.handleWrite hello io) I E)
    (hdone : ∀ c', J c' → I c') : Ensures (c.doSelect proto hello events io) I E := by
  have hlast : ∀ c', J c' → Ensures
      (if c'.pconn.revents.write = true then c'.handleWrite hello io else .ok c') I E := by
    intro c' hJ
    split
    · rename_i hrevents
      exact hwrite c' hJ hrevents
    · exact hdone c' hJ
  simp only [doSelect]
  split
  · rename_i hreg
    by_cases hevent : events.read = true
    · rw [if_pos hevent]
      exact (hread hreg hevent).bind hlast
    · rw [if_neg hevent, ok_bind]
      exact hlast _ (hset hreg)
  · exact hidle

/-! ### Runs -/

/-- One step of the client; a timer can only fire when one is pending. -/
def step (c : ClientLoop) : ClientEvent → Result
  | .select events io => c.doSelect proto hello events io
  | .timer ret => if 0 < c.timers then c.reConnect ret else .ok c
  | .send p => c.send p
  | .close => .ok { c with shutdown := true }

end ClientLoop

/-- `Client::start_connect` on a new `Client`, as the loop finds it. -/
def startConnect (ret : ConnectRet) : ClientLoop.Result := do
  let c ← ClientLoop.startConnect_ {} ret
  return { c with timers := c.timers + 1 }

end MixServer
