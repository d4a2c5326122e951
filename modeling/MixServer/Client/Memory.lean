import MixServer.Net.Transfer
import MixServer.Client.Connector

/-!
The client over the memory of its read buffer.

`MemClient` adds to a `ClientLoop` the `Buffer` behind the connector's `pread_buf`: each
attempt to connect makes a new one. The methods that read are given again, with the calls of
`Buffer` that the source makes; the others are taken as they are. `step_views` says that a step
which loses no byte does what the client without memory does.

The write buffer stays at its readable bytes: what is read depends on it only through what is
left in it, and a lost byte is replaced by another.
-/

namespace MixServer

open Lib Net

/-- A client, and the memory of the read buffer of its connector. -/
structure MemClient where
  loop : ClientLoop
  pread : Buffer

/-- The kernel's answers in one dispatch. -/
structure MemClientIo where
  probe : Bool
  recv : ReadDispatch
  soError : Nat
  send : List Socket.SendRet

/-- What makes the client move. -/
inductive MemClientEvent where
  | select (events : Events) (io : MemClientIo)
  | timer (ret : ConnectRet)
  | send (p : Bytes)
  | close

/-- The answers as the client without memory gets them. -/
def MemClientIo.erase (io : MemClientIo) : ClientIo :=
  ⟨io.probe, ⟨io.recv.blocks.map Prod.fst, io.recv.last⟩, io.soError, io.send⟩

def MemClientEvent.erase : MemClientEvent → ClientEvent
  | .select events io => .select events io.erase
  | .timer ret => .timer ret
  | .send p => .send p
  | .close => .close

namespace MemClient

abbrev Result := Except ClientAbort MemClient

variable (m : MemClient)

/-- Calls a method that does not read. -/
def lift (f : ClientLoop → ClientLoop.Result) : Result :=
  (f m.loop).map fun c => { m with loop := c }

/-- Stores the buffer of the connector. -/
def setPread (pbuf : Buffer) : MemClient where
  loop := { m.loop with pconn := { m.loop.pconn with preadBuf := pbuf.readable } }
  pread := pbuf

/-! ### `Client` -/

/-- `Client::_start_connect`: the new connector has a new buffer. -/
def startConnect_ (ret : ConnectRet) : Result := do
  let m ← m.lift fun c => c.startConnect_ ret
  return { m with pread := Buffer.new }

/-- `Client::_re_connect`. -/
def reConnect (ret : ConnectRet) : Result :=
  let m := { m with loop := { m.loop with timers := m.loop.timers - 1 } }
  if ClientLoop.maxRetryCout < m.loop.retryCount then
    .ok m
  else if m.loop.status = .CONNECTED then
    .ok m
  else do
    let m ← if m.loop.status = .CONNECTING then m.lift ClientLoop.closeConn else .ok m
    let m ← if m.loop.status = .CLOSED then m.startConnect_ ret else .ok m
    return { m with loop := { m.loop with timers := m.loop.timers + 1 } }

variable (proto : Bytes → Except Abort Bytes)

/-- `Client::on_read`, with a bound on the depth of its recursion. -/
def onReadN : Nat → Buffer × Client → Except Abort (Buffer × Client)
  | 0, r => .ok r
  | depth + 1, (pbuf, c) =>
      match fillFrom c.pmsg pbuf with
      | .error x => .error x
      | .ok (pmsg, pbuf, complete) => do
          let c := { c with pmsg := pmsg, preadBuf := pbuf.readable }
          if complete then
            let c ← c.onMsg proto
            let c := { c with pmsg := c.pmsg.clear }
            if 4 ≤ pbuf.readableSize then onReadN depth (pbuf, c) else return (pbuf, c)
          else
            return (pbuf, c)

/-- `Client::on_read`: every recursive call has read at least one byte. -/
def onRead : Result :=
  match onReadN proto (m.pread.readableSize + 1)
      (m.pread, { preadBuf := m.loop.pconn.preadBuf, pmsg := m.loop.pmsg }) with
  | .error x => .error (.reading x)
  | .ok (pbuf, r) => .ok
      { loop := { m.loop with
          pconn := { m.loop.pconn with preadBuf := r.preadBuf }
          pmsg := r.pmsg
          trace := m.loop.trace ++ r.handled.map .onMsg }
        pread := pbuf }

/-! ### `Connector` -/

/-- `Connector::handle_read`. -/
def handleRead (io : MemClientIo) : Result :=
  match m.loop.pconn.status with
  | .CLOSED => .error .handleClosed
  | .CONNECTING => if io.probe then .ok m else m.lift ClientLoop.closeConn
  | .CONNECTED =>
      let m := { m with loop := m.loop.log (.received (Buffer.bytes io.recv.blocks)) }
      let m := m.setPread (m.pread.recvInto io.recv.blocks)
      if io.recv.last.ends then m.lift ClientLoop.closeConn else m.onRead proto

variable (hello : Bytes)

/-- One entry of `EventLoop::do_select`. -/
def doSelect (events : Events) (io : MemClientIo) : Result :=
  if m.loop.pconn.registered then do
    let m := { m with loop := { m.loop with pconn := { m.loop.pconn with revents := events } } }
    let m ← if m.loop.pconn.revents.read then m.handleRead proto io else .ok m
    if m.loop.pconn.revents.write then m.lift fun c => c.handleWrite hello io.erase else .ok m
  else
    .ok m

/-- One step of the client. -/
def step (m : MemClient) : MemClientEvent → Result
  | .select events io => m.doSelect proto hello events io
  | .timer ret => if 0 < m.loop.timers then m.reConnect ret else .ok m
  | .send p => m.lift fun c => c.send p
  | .close => .ok { m with loop := { m.loop with shutdown := true } }

/-- `Client::start_connect` on a new `Client`. -/
def startConnect (ret : ConnectRet) : Result := do
  let m ← startConnect_ { loop := {}, pread := Buffer.new } ret
  return { m with loop := { m.loop with timers := m.loop.timers + 1 } }

/-! ### The memory and the client without it -/

/-- The connector's `preadBuf` is what can be read in the buffer. -/
structure Sync (m : MemClient) : Prop where
  wf : m.pread.Wf
  preadBuf : m.loop.pconn.preadBuf = m.pread.readable

variable {m proto hello}

theorem Sync.of_same (h : m.Sync) {c : ClientLoop}
    (hbuf : c.pconn.preadBuf = m.loop.pconn.preadBuf) : Sync { m with loop := c } :=
  ⟨h.wf, hbuf.trans h.preadBuf⟩

/-- A method that does not read leaves the buffer alone. -/
def Keeps (f : ClientLoop → ClientLoop.Result) : Prop :=
  ∀ c, Ensures (f c) (fun c' => c'.pconn.preadBuf = c.pconn.preadBuf) fun _ => True

theorem lift_views {f : ClientLoop → ClientLoop.Result} (hf : Keeps f) (h : m.Sync) :
    Views loop Sync (m.lift f) (f m.loop) := by
  have hkeeps := hf m.loop
  unfold lift
  cases hr : f m.loop with
  | error x => exact views_error x
  | ok c => exact ⟨rfl, h.of_same (hkeeps.of_ok hr)⟩

theorem keeps_updateEvent (events : Events) : Keeps fun c => c.updateEvent events := by
  intro c
  simp only [ClientLoop.updateEvent]
  split
  · rfl
  · trivial

theorem keeps_send (p : Bytes) : Keeps fun c => c.send p := by
  intro c
  exact keeps_updateEvent _ { c with pconn := { c.pconn with pwriteBuf := c.pconn.pwriteBuf ++ p } }

theorem keeps_closeConn : Keeps ClientLoop.closeConn := by
  intro c
  simp only [ClientLoop.closeConn, ClientLoop.onClose]
  split
  · split
    · rfl
    · rfl
  · trivial

theorem keeps_handleWrite (io : ClientIo) : Keeps fun c => c.handleWrite hello io := by
  intro c
  simp only [ClientLoop.handleWrite]
  split
  · trivial
  · split
    · refine (keeps_updateEvent _ { c with pconn := { c.pconn with status := .CONNECTED } }).bind ?_
      intro c' hc'
      exact (keeps_send hello
        { c'.log .onConnected with retryCount := 0, status := .CONNECTED }).mono
        (fun _ h => h.trans hc') fun _ => id
    · exact keeps_closeConn c
  · split
    · exact keeps_closeConn { c with pconn := { c.pconn with pwriteBuf := _ } }
    · split
      · exact keeps_updateEvent _ { c with pconn := { c.pconn with pwriteBuf := _ } }
      · rfl

theorem newConnector_views (m : MemClient) (ret : ConnectRet) :
    Views loop Sync (m.startConnect_ ret) (m.loop.startConnect_ ret) := by
  have hnew : Buffer.new.readable = [] :=
    List.eq_nil_of_length_eq_zero (Buffer.length_readable Buffer.wf_new)
  simp only [startConnect_, lift, ClientLoop.startConnect_]
  split
  · cases ret with
    | error => exact ⟨rfl, Buffer.wf_new, hnew.symm⟩
    | zero => exact ⟨rfl, Buffer.wf_new, hnew.symm⟩
    | inProgress => exact ⟨rfl, Buffer.wf_new, hnew.symm⟩
  · exact views_error _

theorem reConnect_views (h : m.Sync) (ret : ConnectRet) :
    Views loop Sync (m.reConnect ret) (m.loop.reConnect ret) := by
  have htimers : ∀ {m : MemClient} {n : Nat}, m.Sync →
      Sync { m with loop := { m.loop with timers := n } } := fun h => h.of_same rfl
  simp only [reConnect, ClientLoop.reConnect]
  split
  · exact views_ok (htimers h)
  · split
    · exact views_ok (htimers h)
    · have htail : ∀ m : MemClient, m.Sync → Views loop Sync
          (do
            let m ← if m.loop.status = .CLOSED then m.startConnect_ ret else .ok m
            return { m with loop := { m.loop with timers := m.loop.timers + 1 } } : Result)
          (do
            let c ← if m.loop.status = .CLOSED then m.loop.startConnect_ ret else .ok m.loop
            return { c with timers := c.timers + 1 } : ClientLoop.Result) := by
        intro m h
        split
        · exact (newConnector_views _ ret).bind fun m' h' => views_ok (htimers h')
        · exact views_ok (htimers h)
      split
      · exact (lift_views keeps_closeConn (htimers h)).bind htail
      · exact htail _ (htimers h)

/-! ### Reading -/

/-- `Client::on_read` over the memory. -/
theorem onReadN_views (proto : Bytes → Except Abort Bytes) {r : Buffer × Client} (hwf : r.1.Wf)
    (hbuf : r.2.preadBuf = r.1.readable) (depth : Nat) :
    Views Prod.snd (fun r => r.1.Wf ∧ r.2.preadBuf = r.1.readable) (onReadN proto depth r)
      (r.2.onReadN proto depth) := by
  induction depth generalizing r with
  | zero => exact views_ok ⟨hwf, hbuf⟩
  | succ depth ih =>
    obtain ⟨pbuf, c⟩ := r
    have hfill := fillFrom_spec c.pmsg hwf
    simp only [onReadN, Client.onReadN]
    rw [show c.preadBuf = pbuf.readable from hbuf]
    cases hr : fillFrom c.pmsg pbuf with
    | error x =>
      rw [hfill.of_error hr]
      exact views_error x
    | ok r =>
      obtain ⟨pmsg, pbuf', complete⟩ := r
      obtain ⟨hwf', heq⟩ := hfill.of_ok hr
      rw [heq]
      dsimp only
      split
      · simp only [Client.onMsg]
        split
        · cases proto pmsg.prawData with
          | error x => exact views_error x
          | ok praw =>
            simp only [Except.map, ok_bind, Buffer.length_readable hwf']
            split
            · exact ih hwf' rfl
            · exact views_ok (s := (pbuf', (_ : Client))) ⟨hwf', rfl⟩
        · exact views_error _
      · exact views_ok (s := (pbuf', (_ : Client))) ⟨hwf', rfl⟩

theorem onRead_views (h : m.Sync) : Views loop Sync (m.onRead proto) (m.loop.onRead proto) := by
  have hread := onReadN_views proto (r := (m.pread,
    { preadBuf := m.loop.pconn.preadBuf, pmsg := m.loop.pmsg })) h.wf h.preadBuf
    (m.pread.readableSize + 1)
  have hdepth : m.loop.pconn.preadBuf.length = m.pread.readableSize := by
    rw [h.preadBuf, Buffer.length_readable h.wf]
  simp only [onRead, ClientLoop.onRead, Client.onRead, hdepth]
  obtain ⟨hmap, hinv⟩ := hread
  rw [← hmap]
  cases hr : onReadN proto (m.pread.readableSize + 1)
      (m.pread, { preadBuf := m.loop.pconn.preadBuf, pmsg := m.loop.pmsg }) with
  | error x => exact views_error _
  | ok r =>
    obtain ⟨hwf, hbuf⟩ := hinv.of_ok hr
    exact ⟨rfl, hwf, hbuf⟩

/-- A step in which the connection reads finds room for what comes, or loses only zeros. -/
def KeepsBytes (m : MemClient) : MemClientEvent → Prop
  | .select events io =>
      m.loop.pconn.registered → events.read → m.loop.pconn.status = .CONNECTED →
        m.pread.KeepsAll io.recv.blocks
  | .timer _ | .send _ | .close => True

/-- The client after the receive loop of a connected connector. -/
def arrived (c : ClientLoop) (data : Bytes) : ClientLoop :=
  { c.log (.received data) with pconn := { c.pconn with preadBuf := c.pconn.preadBuf ++ data } }

theorem handleRead_connected {c : ClientLoop} (hstatus : c.pconn.status = .CONNECTED)
    (io : ClientIo) :
    c.handleRead proto io =
      if io.recv.last.ends then (arrived c io.recv.chunks.flatten).closeConn
      else (arrived c io.recv.chunks.flatten).onRead proto := by
  simp only [ClientLoop.handleRead, Socket.recv_snd, Socket.recv_fst]
  split
  · rename_i hclosed
    cases hstatus.symm.trans hclosed
  · rename_i hconnecting
    cases hstatus.symm.trans hconnecting
  · rfl

theorem handleRead_views (h : m.Sync) {io : MemClientIo}
    (hkeeps : m.loop.pconn.status = .CONNECTED → m.pread.KeepsAll io.recv.blocks) :
    Views loop Sync (m.handleRead proto io) (m.loop.handleRead proto io.erase) := by
  rw [handleRead]
  split
  · rename_i hstatus
    rw [ClientLoop.handleRead, hstatus]
    exact views_error _
  · rename_i hstatus
    rw [ClientLoop.handleRead, hstatus]
    change Views loop Sync (if io.probe then _ else _) (if io.probe then _ else _)
    split
    · exact views_ok h
    · exact lift_views keeps_closeConn h
  · rename_i hstatus
    have hread := (Buffer.receives_iff h.wf io.recv.blocks).mpr (hkeeps hstatus)
    rw [Buffer.Receives, ← h.preadBuf] at hread
    have hsync : Sync (setPread
        { m with loop := m.loop.log (.received (Buffer.bytes io.recv.blocks)) }
        (m.pread.recvInto io.recv.blocks)) :=
      ⟨Buffer.wf_recvInto h.wf io.recv.blocks, rfl⟩
    have hloop : arrived m.loop io.erase.recv.chunks.flatten = (setPread
        { m with loop := m.loop.log (.received (Buffer.bytes io.recv.blocks)) }
        (m.pread.recvInto io.recv.blocks)).loop := by
      rw [setPread, hread]
      rfl
    rw [handleRead_connected hstatus, hloop]
    change Views loop Sync (if io.recv.last.ends then _ else _) (if io.recv.last.ends then _ else _)
    split
    · exact lift_views keeps_closeConn hsync
    · exact onRead_views hsync

/-- **One step** that loses no byte does what the client without memory does. -/
theorem step_views (h : m.Sync) {e : MemClientEvent} (hkeeps : KeepsBytes m e) :
    Views loop Sync (m.step proto hello e) (m.loop.step proto hello e.erase) := by
  cases e with
  | select events io =>
    simp only [step, ClientLoop.step, MemClientEvent.erase, doSelect, ClientLoop.doSelect]
    split
    · rename_i hreg
      have hset : Sync { m with loop := { m.loop with
          pconn := { m.loop.pconn with revents := events } } } := h.of_same rfl
      have hlast : ∀ m : MemClient, m.Sync → Views loop Sync
          (if m.loop.pconn.revents.write then m.lift fun c => c.handleWrite hello io.erase
            else .ok m)
          (if m.loop.pconn.revents.write then m.loop.handleWrite hello io.erase
            else .ok m.loop) := by
        intro m h
        split
        · exact lift_views (keeps_handleWrite io.erase) h
        · exact views_ok h
      split
      · rename_i hread
        exact (handleRead_views hset fun hstatus => hkeeps hreg hread hstatus).bind hlast
      · exact hlast _ hset
    · exact views_ok h
  | timer ret =>
    simp only [step, ClientLoop.step, MemClientEvent.erase]
    split
    · exact reConnect_views h ret
    · exact views_ok h
  | send p => exact lift_views (keeps_send p) h
  | close => exact ⟨rfl, h.of_same rfl⟩

theorem startConnect_views (ret : ConnectRet) :
    Views loop Sync (startConnect ret) (MixServer.startConnect ret) := by
  exact (newConnector_views _ ret).bind fun m h => views_ok (h.of_same rfl)

theorem exists_startConnect (ret : ConnectRet) {c : ClientLoop}
    (hc : MixServer.startConnect ret = .ok c) :
    ∃ m, startConnect ret = .ok m ∧ MixServer.startConnect ret = .ok m.loop := by
  have hmap := (startConnect_views ret).map_eq
  cases hm : startConnect ret with
  | error x =>
    rw [hm, hc] at hmap
    cases hmap
  | ok m => exact ⟨m, rfl, by rw [← hmap, hm]; rfl⟩

/-! ### Few unread bytes -/

/-- What is unread and what comes fit in the vector of a new buffer. -/
def Small (c : ClientLoop) : ClientEvent → Prop
  | .select _ io => c.pconn.preadBuf.length + io.recv.chunks.flatten.length ≤ Buffer.BUFFER_SIZE
  | .timer _ | .send _ | .close => True

instance (c : ClientLoop) : ∀ e, Decidable (Small c e)
  | .select _ _ => inferInstanceAs (Decidable (_ ≤ _))
  | .timer _ | .send _ | .close => .isTrue trivial

/-- The buffer has never grown. -/
def AtSize (m : MemClient) : Prop := m.pread.date.capacity = Buffer.BUFFER_SIZE

structure Roomy (m : MemClient) : Prop extends m.Sync where
  capacity : m.AtSize

theorem Roomy.room (h : Roomy m) {events : Events} {io : MemClientIo}
    (hsmall : Small m.loop (.select events io.erase)) :
    m.pread.readableSize + (Buffer.bytes io.recv.blocks).length ≤ m.pread.date.capacity := by
  rw [show m.pread.date.capacity = _ from h.capacity, ← Buffer.length_readable h.wf,
    ← h.preadBuf]
  exact hsmall

theorem Roomy.keepsBytes (h : Roomy m) {e : MemClientEvent} (hsmall : Small m.loop e.erase) :
    KeepsBytes m e := by
  cases e with
  | select events io => exact fun _ _ _ => (Buffer.keepsAll_of_room h.wf (h.room hsmall)).1
  | timer ret => trivial
  | send p => trivial
  | close => trivial

/-- What does not read leaves the allocation alone. -/
theorem AtSize.lift (h : m.AtSize) (f : ClientLoop → ClientLoop.Result) :
    Ensures (m.lift f) AtSize fun _ => True := by
  unfold MemClient.lift
  cases f m.loop with
  | error x => trivial
  | ok c => exact h

theorem atSize_startConnect_ (m : MemClient) (ret : ConnectRet) :
    Ensures (m.startConnect_ ret) AtSize fun _ => True := by
  simp only [startConnect_, MemClient.lift]
  cases m.loop.startConnect_ ret with
  | error x => trivial
  | ok c => exact Buffer.capacity_new

theorem onReadN_date (proto : Bytes → Except Abort Bytes) {r : Buffer × Client} (depth : Nat) :
    Ensures (onReadN proto depth r) (fun r' => r'.1.date = r.1.date) fun _ => True := by
  induction depth generalizing r with
  | zero => rfl
  | succ depth ih =>
    obtain ⟨pbuf, c⟩ := r
    have hfill := fillFrom_date c.pmsg pbuf
    simp only [onReadN]
    cases hr : fillFrom c.pmsg pbuf with
    | error x => trivial
    | ok r =>
      obtain ⟨pmsg, pbuf', complete⟩ := r
      have hdate : pbuf'.date = pbuf.date := hfill.of_ok hr
      dsimp only
      split
      · simp only [Client.onMsg]
        split
        · cases proto pmsg.prawData with
          | error x => trivial
          | ok praw =>
            simp only [Except.map, ok_bind]
            split
            · exact (ih (r := (pbuf', _))).mono (fun _ h => h.trans hdate) fun _ => id
            · exact hdate
        · trivial
      · exact hdate

/-- A dispatch that reads few bytes leaves the buffer as large as it is. -/
theorem Roomy.handleRead (h : Roomy m) (events : Events) {io : MemClientIo}
    (hsmall : Small m.loop (.select events io.erase)) :
    Ensures (m.handleRead proto io) AtSize fun _ => True := by
  have hcap := (Buffer.keepsAll_of_room h.wf (h.room hsmall)).2.trans h.capacity
  rw [MemClient.handleRead]
  split
  · trivial
  · split
    · exact h.capacity
    · exact h.capacity.lift _
  · dsimp only
    split
    · exact AtSize.lift (m := setPread _ _) hcap _
    · have hdate := onReadN_date proto (r := (m.pread.recvInto io.recv.blocks,
        { preadBuf := (m.pread.recvInto io.recv.blocks).readable, pmsg := m.loop.pmsg }))
        ((m.pread.recvInto io.recv.blocks).readableSize + 1)
      simp only [onRead, setPread]
      split
      · trivial
      · rename_i heq
        exact (congrArg CharVec.capacity (hdate.of_ok heq)).trans hcap

theorem AtSize.reConnect (h : m.AtSize) (ret : ConnectRet) :
    Ensures (m.reConnect ret) AtSize fun _ => True := by
  simp only [MemClient.reConnect]
  split
  · exact h
  · split
    · exact h
    · have htail : ∀ m : MemClient, m.AtSize → Ensures
          (do
            let m ← if m.loop.status = .CLOSED then m.startConnect_ ret else .ok m
            return { m with loop := { m.loop with timers := m.loop.timers + 1 } } : Result)
          AtSize fun _ => True := by
        intro m h
        split
        · exact (atSize_startConnect_ m ret).bind fun _ h' => h'
        · exact h
      have hthis : AtSize { m with loop := { m.loop with timers := m.loop.timers - 1 } } := h
      split
      · exact (hthis.lift _).bind htail
      · exact htail _ hthis

theorem Roomy.step (h : Roomy m) {e : MemClientEvent} (hsmall : Small m.loop e.erase) :
    Ensures (m.step proto hello e) AtSize fun _ => True := by
  cases e with
  | select events io =>
    simp only [MemClient.step, MemClient.doSelect]
    split
    · have hset : Roomy { m with loop := { m.loop with
          pconn := { m.loop.pconn with revents := events } } } :=
        ⟨h.toSync.of_same rfl, h.capacity⟩
      have hlast : ∀ m : MemClient, m.AtSize → Ensures
          (if m.loop.pconn.revents.write then m.lift fun c => c.handleWrite hello io.erase
            else .ok m) AtSize fun _ => True := by
        intro m h
        split
        · exact h.lift _
        · exact h
      split
      · exact (hset.handleRead events hsmall).bind hlast
      · exact hlast _ hset.capacity
    · exact h.capacity
  | timer ret =>
    simp only [MemClient.step]
    split
    · exact h.capacity.reConnect ret
    · exact h.capacity
  | send p => exact h.capacity.lift fun c => c.send p
  | close => exact h.capacity

theorem startConnect_roomy (ret : ConnectRet) :
    Ensures (startConnect ret) Roomy fun _ => True := by
  have hsize : Ensures (startConnect ret) AtSize fun _ => True :=
    (atSize_startConnect_ _ ret).bind fun _ h => h
  exact ((startConnect_views ret).invariant.and hsize).mono (fun _ h => ⟨h.1, h.2⟩)
    fun _ _ => trivial

/-- **A client with few unread bytes** loses none: a run of the client without memory in which
they always fit in the vector of a new buffer is one over the memory. -/
theorem every_of_small {P : ClientLoop → ClientEvent → Prop} (h : Roomy m)
    {es : List MemClientEvent}
    (hrun : Every (ClientLoop.step proto hello) (fun c e => P c e ∧ Small c e) m.loop
      (es.map MemClientEvent.erase)) :
    Every (step proto hello) (fun m e => P m.loop e.erase ∧ KeepsBytes m e) m es := by
  induction es generalizing m with
  | nil => trivial
  | cons e es ih =>
    obtain ⟨⟨hP, hsmall⟩, hrest⟩ := hrun
    have hkeeps := h.keepsBytes hsmall
    have hviews : Views loop Sync (m.step proto hello e) (m.loop.step proto hello e.erase) :=
      step_views h.toSync hkeeps
    have hcap : Ensures (m.step proto hello e) AtSize fun _ => True := h.step hsmall
    obtain ⟨heq, hsync⟩ := hviews
    refine ⟨⟨hP, hkeeps⟩, ?_⟩
    intro m' hm'
    rw [hm'] at heq
    exact ih ⟨hsync.of_ok hm', hcap.of_ok hm'⟩ (hrest _ heq.symm)

theorem exec_small (h : Roomy m) {es : List MemClientEvent}
    (hrun : Every (ClientLoop.step proto hello) Small m.loop (es.map MemClientEvent.erase)) :
    Views loop Sync (exec (step proto hello) m es)
      (exec (ClientLoop.step proto hello) m.loop (es.map MemClientEvent.erase)) := by
  have hevery := every_of_small (P := fun _ _ => True) h
    (every_and.mpr ⟨every_of_forall fun _ _ => trivial, hrun⟩)
  have hstep : ∀ (m : MemClient) (e : MemClientEvent), m.Sync → KeepsBytes m e →
      Views loop Sync (m.step proto hello e) (m.loop.step proto hello e.erase) :=
    fun _ _ hm hkeeps => step_views hm hkeeps
  exact exec_views hstep h.toSync (every_and.mp hevery).2

end MemClient

end MixServer
