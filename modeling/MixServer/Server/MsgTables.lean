import MixServer.Server.ProtoMsg

/-!
The tables of `MsgServer` over whole runs: `streams`, in which `send_msg` looks up
the connection it writes to, and `conn_msgs`.

Between and within the dispatches the script calls `send_msg` with any id.
`vanished_replies` says what that does to `streams`, and `conn_msgs_live_iff` in
which runs every entry of `conn_msgs` belongs to a connection in `streams`:
nothing ever takes an entry out.
-/

namespace MixServer.Server

open Lib Net
open Function (update)

/-- The fields `MsgServer` adds, and the keys of `streams` whose pointer is null. -/
structure MsgTables where
  connMsgs : ConnMsgs := fun _ => none
  nullKeys : Finset Int := ∅

/-- The connection is in `streams`; the id is an `int`. -/
def Connected {ε : Type} (connId : Int) (w : TcpServer ε) : Prop :=
  0 ≤ connId ∧ connId.toNat ∈ w.streams

instance {ε : Type} (connId : Int) (w : TcpServer ε) : Decidable (Connected connId w) :=
  inferInstanceAs (Decidable (_ ∧ _))

namespace MsgTables

/-- The arguments of a `send_msg` call. -/
abbrev Reply := Int × ProtoMsg

/-! ### The methods -/

/-- `streams[conn_id]`: an id that is not there gets an entry, with a null pointer. -/
def lookup (connId : Int) (w : TcpServer MsgTables) : Option Nat × TcpServer MsgTables :=
  if Connected connId w then (some connId.toNat, w)
  else (none, { w with ext := { w.ext with nullKeys := insert connId w.ext.nullKeys } })

variable (stack : Stack)

/-- `MsgServer::send_msg`. -/
def sendMsg (w : TcpServer MsgTables) (reply : Reply) : Except Crash (TcpServer MsgTables) :=
  if 0 < reply.2.len then
    let (pstream, w) := lookup reply.1 w
    match pstream with
    | some a => TcpStream.send a (reply.2.getRaw stack) w
    | none => w.abort .sendMsgStream
  else
    w.abort .sendMsgLen

/-- The message of connection `a`; `handle_read` makes it when it is missing. -/
def msg (a : Nat) (w : TcpServer MsgTables) : Msg := (w.ext.connMsgs a).getD {}

def setMsg (a : Nat) (pmsg : Msg) (w : TcpServer MsgTables) : TcpServer MsgTables :=
  { w with ext := { w.ext with connMsgs := update w.ext.connMsgs a (some pmsg) } }

/-- `MsgServer::handle_msg`. `Proto::on_msg` takes the ids off the message, and
`replies` is what the handler registered for them sends. -/
def handleMsg (replies : List Reply) (a : Nat) : Method MsgTables := fun w =>
  let w := w.log (.handleMsg a (msg a w).prawData)
  match ProtoMsg.readIds (msg a w).prawData with
  | .error c => w.abort c
  | .ok (_, _, praw) =>
      exec (sendMsg stack) (setMsg a { msg a w with prawData := praw } w) replies

/-- `MsgServer::handle_read`, with a bound on the depth of its recursion; `replies`
are those to its messages, in order. -/
def handleReadN (a : Nat) : Nat → List (List Reply) → Method MsgTables
  | 0, _ => .ok
  | depth + 1, replies => fun w =>
      if a ∈ w.streams then
        match fill (msg a w) (w.heap a).preadBuf with
        | .error c => w.abort c
        | .ok (pmsg, pbuf, complete) => do
            let w := setMsg a pmsg (w.modify a fun s => { s with preadBuf := pbuf })
            if complete then
              let w ← handleMsg stack (replies.headD []) a w
              let w := setMsg a (msg a w).clear w
              if 4 ≤ (w.heap a).preadBuf.length then handleReadN a depth replies.tail w
              else return w
            else
              return w
      else
        w.abort .handleReadStreams

/-- The virtual methods of `MsgServer` during a dispatch in which the script sends
these replies. -/
def server (replies : List (List Reply)) : ServerClass MsgTables where
  newConnect := TcpServer.newConnect
  handleRead a := fun w => handleReadN stack a ((w.heap a).preadBuf.length + 1) replies w
  closeConnect := TcpServer.closeConnect

/-- What makes the server move: an active descriptor, with the replies of the
script to the messages of the dispatch, or `send_msg` called from elsewhere. -/
inductive Event where
  | select (fd : Nat) (events : Events) (io : Io) (replies : List (List Reply))
  | sendMsg (reply : Reply)

def step (w : TcpServer MsgTables) : Event → Except Crash (TcpServer MsgTables)
  | .select fd events io replies => doSelect (server stack replies) fd events io w
  | .sendMsg reply => sendMsg stack w reply

end MsgTables

/-! ### Sending and reading -/

theorem fill_cause {pmsg : Msg} {pbuf : Bytes} {c : Abort} (h : fill pmsg pbuf = .error c) :
    c = .tryWrite := by
  by_cases hword : pmsg.len = 0 ∧ 4 ≤ pbuf.length
  · by_cases hpos : 0 < readInt pbuf
    · simp only [fill, if_pos hword, Msg.tryWrite, if_pos hpos, Except.map, ok_bind] at h
      split at h <;> cases h
    · simp only [fill, if_pos hword, Msg.tryWrite, if_neg hpos, Except.map, error_bind] at h
      cases h
      rfl
  · simp only [fill, if_neg hword, ok_bind] at h
    split at h <;> cases h

theorem ProtoMsg.readIds_cause {prawData : Bytes} {c : Abort}
    (h : ProtoMsg.readIds prawData = .error c) : c = .readIds := by
  unfold ProtoMsg.readIds at h
  split at h
  · cases h
  · cases h
    rfl

namespace MsgTables

variable (stack : Stack) {w w' w'' : TcpServer MsgTables} {a : Nat} {p : Prop}

/-- What `handle_read` of connection `a` leaves alone. -/
structure Reads (a : Nat) (w w' : TcpServer MsgTables) : Prop where
  streams : w'.streams = w.streams
  nullKeys : w'.ext.nullKeys = w.ext.nullKeys
  connMsgs : ∀ b, b ≠ a → w'.ext.connMsgs b = w.ext.connMsgs b
  closed : ∀ b, (w'.heap b).closed = (w.heap b).closed

theorem Reads.refl (a : Nat) (w : TcpServer MsgTables) : Reads a w w :=
  ⟨rfl, rfl, fun _ _ => rfl, fun _ => rfl⟩

theorem Reads.trans (h : Reads a w w') (h' : Reads a w' w'') : Reads a w w'' where
  streams := h'.streams.trans h.streams
  nullKeys := h'.nullKeys.trans h.nullKeys
  connMsgs b hb := (h'.connMsgs b hb).trans (h.connMsgs b hb)
  closed b := (h'.closed b).trans (h.closed b)

theorem Reads.connected (h : Reads a w w') (connId : Int) :
    Connected connId w' ↔ Connected connId w := by
  rw [Connected, Connected, h.streams]

theorem reads_log (a : Nat) (w : TcpServer MsgTables) (o : Obs) : Reads a w (w.log o) :=
  ⟨rfl, rfl, fun _ _ => rfl, fun _ => rfl⟩

theorem reads_setMsg (a : Nat) (pmsg : Msg) (w : TcpServer MsgTables) :
    Reads a w (setMsg a pmsg w) where
  streams := rfl
  nullKeys := rfl
  connMsgs _ hb := Function.update_of_ne hb _ _
  closed _ := rfl

theorem setMsg_inv (h : Inv always none w) (a : Nat) (pmsg : Msg) :
    Inv always none (setMsg a pmsg w) where
  __ := h
  owned _ _ _ := trivial

/-- The process does not abort for want of a stream, if `p`. -/
def Answered (p : Prop) (x : Crash) : Prop := p → x.cause ≠ .sendMsgStream

/-- A message to a connection in `streams` is queued there. -/
theorem sendMsg_connected (h : Inv always none w) {reply : Reply} (hconn : Connected reply.1 w)
    (hlen : 0 < reply.2.len) :
    ∃ w', sendMsg stack w reply = .ok w' ∧ Inv always none w' ∧ w'.ext = w.ext ∧
      w'.streams = w.streams ∧ ∀ b, (w'.heap b).closed = (w.heap b).closed := by
  have hmem := hconn.2
  have hsend : sendMsg stack w reply = TcpStream.send reply.1.toNat (reply.2.getRaw stack) w := by
    simp only [sendMsg, if_pos hlen, lookup, if_pos hconn]
  have hinv : Ensures (TcpStream.send reply.1.toNat (reply.2.getRaw stack) w)
      (Inv always none) fun _ => False := h.send hmem trivial _
  rw [h.send_eq hmem] at hsend hinv
  refine ⟨_, hsend, hinv, rfl, rfl, ?_⟩
  intro b
  have hevents : ∀ e, ((w.setEvents reply.1.toNat e).heap b).closed = (w.heap b).closed :=
    fun e => modify_closed (f := fun s => { s with events := e }) (fun _ => rfl) b
  exact (modify_closed (by intro s; rfl) b).trans (hevents _)

/-- Any other id gets an entry without a stream, and the process aborts. -/
theorem sendMsg_vanished {reply : Reply} (hconn : ¬ Connected reply.1 w)
    (hlen : 0 < reply.2.len) : sendMsg stack w reply = .error ⟨.sendMsgStream, w.trace⟩ := by
  simp only [sendMsg, if_pos hlen, lookup, if_neg hconn]
  rfl

theorem sendMsg_empty {reply : Reply} (hlen : ¬ 0 < reply.2.len) :
    sendMsg stack w reply = .error ⟨.sendMsgLen, w.trace⟩ := if_neg hlen

theorem sendMsg_reads (h : Inv always none w) {reply : Reply} (hp : p → Connected reply.1 w) :
    Ensures (sendMsg stack w reply) (fun w' => Inv always none w' ∧ Reads a w w')
      (Answered p) := by
  by_cases hlen : 0 < reply.2.len
  · by_cases hconn : Connected reply.1 w
    · obtain ⟨w', hok, hinv, hext, hstreams, hclosed⟩ := sendMsg_connected stack h hconn hlen
      rw [hok]
      exact ⟨hinv, hstreams, by rw [hext], fun b _ => by rw [hext], hclosed⟩
    · rw [sendMsg_vanished stack hconn hlen]
      intro hall
      exact absurd (hp hall) hconn
  · rw [sendMsg_empty stack hlen]
    intro _ hcause
    cases hcause

theorem sendMsgs_reads (h : Inv always none w) {replies : List Reply}
    (hp : p → ∀ r ∈ replies, Connected r.1 w) :
    Ensures (exec (sendMsg stack) w replies) (fun w' => Inv always none w' ∧ Reads a w w')
      (Answered p) := by
  induction replies generalizing w with
  | nil => exact ⟨h, Reads.refl a w⟩
  | cons r rs ih =>
    have hfirst := sendMsg_reads stack (a := a) h fun hall =>
      hp hall r List.mem_cons_self
    cases hr : sendMsg stack w r with
    | error x =>
      rw [exec_cons_error hr]
      exact hfirst.of_error hr
    | ok w' =>
      obtain ⟨h', hreads⟩ := hfirst.of_ok hr
      rw [exec_cons_ok hr]
      refine (ih h' ?_).mono ?_ fun _ => id
      · intro hall r' hr'
        exact (hreads.connected r'.1).mpr (hp hall r' (List.mem_cons_of_mem r hr'))
      · rintro w'' ⟨h'', hrest⟩
        exact ⟨h'', hreads.trans hrest⟩

theorem handleMsg_reads (h : Inv always none w) {replies : List Reply}
    (hp : p → ∀ r ∈ replies, Connected r.1 w) :
    Ensures (handleMsg stack replies a w) (fun w' => Inv always none w' ∧ Reads a w w')
      (Answered p) := by
  have hlog := h.log (o := .handleMsg a (msg a w).prawData) (by simp)
  unfold handleMsg
  dsimp only
  split
  · rename_i c hc
    obtain rfl := ProtoMsg.readIds_cause hc
    intro _ hcause
    cases hcause
  · refine (sendMsgs_reads stack (a := a) (setMsg_inv hlog a _) hp).mono ?_ fun _ => id
    rintro w' ⟨h', hreads⟩
    exact ⟨h', (reads_log a w _).trans ((reads_setMsg a _ _).trans hreads)⟩

/-- `handle_read` touches no table but the entry of its connection. -/
theorem handleReadN_reads (h : Inv always none w) (ha : a ∈ w.streams) (depth : Nat)
    {replies : List (List Reply)} (hp : p → ∀ r ∈ replies.flatten, Connected r.1 w) :
    Ensures (handleReadN stack a depth replies w)
      (fun w' => Inv always none w' ∧ Reads a w w') (Answered p) := by
  induction depth generalizing w replies with
  | zero => exact ⟨h, Reads.refl a w⟩
  | succ depth ih =>
    simp only [handleReadN, if_pos ha]
    split
    · rename_i c hc
      obtain rfl := fill_cause hc
      intro _ hcause
      cases hcause
    · rename_i pmsg pbuf complete hfill
      have hread := setMsg_inv (h.modifyRead (a := a) fun _ => pbuf) a pmsg
      have hreads : Reads a w
          (setMsg a pmsg (w.modify a fun s => { s with preadBuf := pbuf })) := by
        refine ⟨rfl, rfl, fun b hb => Function.update_of_ne hb _ _, ?_⟩
        exact modify_closed (f := fun s => { s with preadBuf := pbuf }) fun _ => rfl
      cases complete with
      | false => exact ⟨hread, hreads⟩
      | true =>
        simp only [if_true]
        refine Ensures.bind (handleMsg_reads stack hread (p := p) ?_) ?_
        · intro hall r hr
          apply hp hall
          cases replies with
          | nil => cases hr
          | cons rs rest => exact List.mem_append_left _ hr
        · rintro w₁ ⟨h₁, hreads₁⟩
          have hset := hreads.trans (hreads₁.trans (reads_setMsg a (msg a w₁).clear w₁))
          split
          · refine (ih (setMsg_inv h₁ a _) (by rw [hset.streams]; exact ha) ?_).mono ?_ fun _ => id
            · intro hall r hr
              rw [hset.connected]
              apply hp hall
              cases replies with
              | nil => cases hr
              | cons rs rest => exact List.mem_append_right _ hr
            · rintro w₂ ⟨h₂, hreads₂⟩
              exact ⟨h₂, hset.trans hreads₂⟩
          · exact ⟨setMsg_inv h₁ a _, hset⟩

/-! ### One dispatch -/

/-- What half of a dispatch of connection `a` does to the tables: `a` leaves
`streams` exactly under `P`, and what is in `conn_msgs` for it stays there. -/
structure Half (a : Nat) (P : Prop) (w w' : TcpServer MsgTables) : Prop where
  streams : ∀ b, b ∈ w'.streams ↔ b ∈ w.streams ∧ (b = a → ¬ P)
  nullKeys : w'.ext.nullKeys = w.ext.nullKeys
  connMsgs : ∀ b, (b = a → P) → w'.ext.connMsgs b = w.ext.connMsgs b
  closed : ∀ b ∈ w'.streams, (w'.heap b).closed = (w.heap b).closed

variable {P : Prop}

theorem Leaves.half (h : Leaves a P w w') : Half a P w w' where
  streams := h.streams
  nullKeys := by rw [h.ext]
  connMsgs _ _ := by rw [h.ext]
  closed := h.closed

theorem Reads.half (h : Reads a w w') (hP : ¬ P) : Half a P w w' where
  streams b := by simp [h.streams, hP]
  nullKeys := h.nullKeys
  connMsgs b hb := h.connMsgs b fun hba => hP (hb hba)
  closed b _ := h.closed b

theorem server_respects (replies : List (List Reply)) :
    Respects always (fun _ => True) (server stack replies) where
  closes := closes_always
  reads h ha := (handleReadN_reads stack (p := False) h ha _ fun hp => hp.elim).mono
    (fun _ => And.left) fun _ _ => trivial

/-- `handle_event` until its test of WRITE. -/
def readHalf (stack : Stack) (replies : List (List Reply)) (io : Io) (a : Nat) :
    Method MsgTables := fun w =>
  if (w.heap a).revents.read then TcpStream.handleRead (server stack replies) io.recv a w
  else .ok w

/-- `handle_event` from its test of WRITE on. -/
def writeHalf (stack : Stack) (replies : List (List Reply)) (io : Io) (a : Nat) :
    Method MsgTables := fun w =>
  if (w.heap a).revents.write then TcpStream.handleWrite (server stack replies) io.send a w
  else .ok w

theorem handleEvent_eq (replies : List (List Reply)) (io : Io) (a : Nat)
    (w : TcpServer MsgTables) : TcpStream.handleEvent (server stack replies) io a w =
      readHalf stack replies io a w >>= writeHalf stack replies io a := rfl

/-- The read event ends the connection. -/
def EndsRead (io : Io) (a : Nat) (w : TcpServer MsgTables) : Prop :=
  (w.heap a).revents.read = true ∧ io.recv.last.ends = true ∧ (w.heap a).pwriteBuf = []

/-- The write event ends the connection. -/
def EndsWrite (io : Io) (a : Nat) (w : TcpServer MsgTables) : Prop :=
  (w.heap a).revents.write = true ∧ (w.heap a).closing = true ∧
    Socket.drains io.send (w.heap a).pwriteBuf.length = true

theorem readHalf_half (h : Inv always none w) (ha : a ∈ w.streams) (io : Io)
    (replies : List (List Reply)) (hp : p → ∀ r ∈ replies.flatten, Connected r.1 w) :
    Ensures (readHalf stack replies io a w)
      (fun w' => Inv always none w' ∧ Half a (EndsRead io a w) w w') (Answered p) := by
  unfold readHalf
  split
  · rename_i hread
    by_cases hends : io.recv.last.ends = true
    · have hinv := h.handleRead (server_respects stack replies) ha io.recv
        fun _ => trivial
      have hleaves := handleRead_leaves (E := Answered p)
        (C := server stack replies) rfl h ha hends
      refine (hinv.and hleaves).mono ?_ fun _ => And.right
      rintro w' ⟨h', hleaves'⟩
      have hsame := hleaves'.of_same rfl rfl (fun _ => rfl)
        (show _ ↔ EndsRead io a w by simp [EndsRead, hread, hends])
      exact ⟨h', Leaves.half hsame⟩
    · have hreceived : Reads a w (w.received a io.recv.chunks.flatten) :=
        ⟨rfl, rfl, fun _ _ => rfl, modify_closed (by intro s; rfl)⟩
      rw [handleRead_of_not_ends hends]
      refine (handleReadN_reads stack (h.received ha _) ha _ hp).mono ?_ fun _ => id
      rintro w' ⟨h', hreads⟩
      exact ⟨h', (hreceived.trans hreads).half fun he => hends he.2.1⟩
  · rename_i hread
    exact ⟨h, (Reads.refl a w).half fun he => hread he.1⟩

theorem writeHalf_half (h : Inv always none w) (io : Io) (replies : List (List Reply)) :
    Ensures (writeHalf stack replies io a w)
      (fun w' => Inv always none w' ∧ Half a (EndsWrite io a w) w w') fun _ => False := by
  unfold writeHalf
  split
  · rename_i hwrite
    have ha := h.mem_of_event (.inr hwrite)
    have hrespects := server_respects stack replies
    have hinv := h.handleWrite hrespects ha io.send
    have hleaves := handleWrite_leaves (E := fun _ => False)
      (C := server stack replies) rfl h ha io.send
    refine (hinv.and hleaves).mono ?_ fun _ => And.right
    rintro w' ⟨h', hleaves'⟩
    have hsame := hleaves'.of_same rfl rfl (fun _ => rfl)
      (show _ ↔ EndsWrite io a w by simp [EndsWrite, hwrite])
    exact ⟨h', Leaves.half hsame⟩
  · rename_i hwrite
    exact ⟨h, (Reads.refl a w).half fun he => hwrite he.1⟩

/-! ### `streams` -/

/-- Every entry of `streams` has a stream, which is open and known to the loop. -/
structure StreamsOpen (w : TcpServer MsgTables) : Prop where
  nullKeys : w.ext.nullKeys = ∅
  closed : ∀ a ∈ w.streams, (w.heap a).closed = false
  handles : ∀ a ∈ w.streams, w.ploop.handles (w.heap a).fd = some (.stream a)

/-- Every `send_msg` of the event is to a connection that is in `streams`. -/
def SendsConnected (w : TcpServer MsgTables) : Event → Prop
  | .select _ _ _ replies => ∀ r ∈ replies.flatten, Connected r.1 w
  | .sendMsg reply => Connected reply.1 w

/-- `send_msg` returns and leaves `streams` as it was. -/
def Harmless (stack : Stack) (reply : Reply) (w : TcpServer MsgTables) : Prop :=
  ∃ w', sendMsg stack w reply = .ok w' ∧ w'.streams = w.streams ∧
    w'.ext.nullKeys = w.ext.nullKeys

theorem harmless_iff (h : Inv always none w) (reply : Reply) :
    Harmless stack reply w ↔ Connected reply.1 w ∧ 0 < reply.2.len := by
  constructor
  · rintro ⟨w', hok, -, -⟩
    have hlen : 0 < reply.2.len := by
      by_contra hlen
      rw [sendMsg_empty stack hlen] at hok
      cases hok
    constructor
    · by_contra hconn
      rw [sendMsg_vanished stack hconn hlen] at hok
      cases hok
    · exact hlen
  · rintro ⟨hconn, hlen⟩
    obtain ⟨w', hok, -, hext, hstreams, -⟩ := sendMsg_connected stack h hconn hlen
    exact ⟨w', hok, hstreams, by rw [hext]⟩

/-- The invariant behind `StreamsOpen`. -/
structure Opened (w : TcpServer MsgTables) : Prop where
  inv : Inv always none w
  nullKeys : w.ext.nullKeys = ∅
  closed : ∀ a ∈ w.streams, (w.heap a).closed = false

theorem Opened.streamsOpen (h : Opened w) : StreamsOpen w where
  nullKeys := h.nullKeys
  closed := h.closed
  handles a ha := (h.inv.registered a ha).1

theorem Opened.half (h : Opened w) (hinv : Inv always none w') (hhalf : Half a P w w') :
    Opened w' where
  inv := hinv
  nullKeys := hhalf.nullKeys.trans h.nullKeys
  closed b hb := (hhalf.closed b hb).trans (h.closed b ((hhalf.streams b).mp hb).1)

theorem Opened.connected (h : Opened w) {fd : Nat}
    (hfd : (w.ploop.select_ fd).isSome = false) : Opened (w.connected fd) where
  inv := h.inv.connected hfd
  nullKeys := h.nullKeys
  closed b hb := by
    rcases Finset.mem_insert.mp hb with rfl | hb
    · simp
    · have hne := h.inv.ne_next hb
      simpa [hne] using h.closed b hb

theorem Opened.dispatched (h : Opened w) (ha : a ∈ w.streams) (events : Events) :
    Opened (w.modify a fun s => { s with revents := events }) where
  inv := h.inv.dispatched ha events
  nullKeys := h.nullKeys
  closed b hb :=
    (modify_closed (f := fun s => { s with revents := events }) (fun _ => rfl) b).trans
      (h.closed b hb)

theorem Opened.step (h : Opened w) (e : Event) :
    Ensures (step stack w e) Opened (Answered (SendsConnected w e)) := by
  cases e with
  | sendMsg reply =>
    refine (sendMsg_reads stack (a := 0) (p := SendsConnected w (.sendMsg reply)) h.inv id).mono ?_
      fun _ => id
    rintro w' ⟨hinv, hreads⟩
    exact h.half hinv (hreads.half (P := False) id)
  | select fd events io replies =>
    have hother : ∀ c, c ≠ Abort.sendMsgStream →
        Answered (SendsConnected w (.select fd events io replies)) ⟨c, w.trace⟩ :=
      fun c hc _ => hc
    simp only [MsgTables.step, doSelect]
    split
    · exact hother _ (by decide)
    · split
      · unfold Acceptor.handleRead
        split
        · exact hother _ (by decide)
        · rename_i fd' peer _
          change Ensures (TcpServer.newConnect fd' peer w) _ _
          rw [TcpServer.newConnect_eq]
          split
          · split
            · exact hother _ (by decide)
            · rename_i hfd
              exact h.connected (by simpa using hfd)
          · exact hother _ (by decide)
      · exact h
    · rename_i a hfd
      have ha := (h.inv.handled fd a hfd).1
      have hdispatched := h.dispatched ha events
      rw [handleEvent_eq stack]
      refine Ensures.bind (readHalf_half stack hdispatched.inv ha io replies id) ?_
      rintro w₁ ⟨hinv₁, hhalf₁⟩
      have h₁ := hdispatched.half hinv₁ hhalf₁
      refine (writeHalf_half stack hinv₁ io replies).mono ?_ fun _ => False.elim
      rintro w₂ ⟨hinv₂, hhalf₂⟩
      exact h₁.half hinv₂ hhalf₂

theorem opened_bind (lfd : Nat) : Opened (TcpServer.bind lfd {}) where
  inv := Inv.bind lfd _
  nullKeys := rfl
  closed a ha := by simp [TcpServer.bind] at ha

/-- **Replies to vanished clients.** In every run, whatever is sent to whom, every
entry of `streams` has a stream that is open. A `send_msg` leaves `streams` alone
and returns exactly when its id is that of a connection in `streams` (and the
message is not empty); a run in which all of them are does not end at the
assertion that there is a stream. -/
theorem vanished_replies (stack : Stack) (lfd : Nat) (es : List Event) :
    AllReached (step stack) StreamsOpen (TcpServer.bind lfd {}) es ∧
      AllReached (step stack)
        (fun w => ∀ reply, Harmless stack reply w ↔ Connected reply.1 w ∧ 0 < reply.2.len)
        (TcpServer.bind lfd {}) es ∧
      (Every (step stack) SendsConnected (TcpServer.bind lfd {}) es →
        Ensures (exec (step stack) (TcpServer.bind lfd {}) es) StreamsOpen
          fun x => x.cause ≠ .sendMsgStream) := by
  have hall : AllReached (step stack) Opened (TcpServer.bind lfd {}) es :=
    allReached_of_every (fun _ e h _ => (h.step stack e).mono (fun _ => id) fun _ _ => trivial)
      (opened_bind lfd) (every_of_forall (P := fun _ _ => True) fun _ _ => trivial)
  refine ⟨hall.mono fun _ => Opened.streamsOpen, hall.mono fun _ h => harmless_iff stack h.inv, ?_⟩
  intro hevery
  have hstep : ∀ w e, Opened w → SendsConnected w e →
      Ensures (step stack w e) Opened fun x => x.cause ≠ .sendMsgStream :=
    fun w e h hsends => (h.step stack e).mono (fun _ => id) fun _ hx => hx hsends
  exact (exec_ensures_of_every hstep (opened_bind lfd) hevery).mono
    (fun _ => Opened.streamsOpen) fun _ => id

/-- A client connects on descriptor 4, and is gone when the descriptor is next
active. -/
def comesAndGoes (chunks : List Bytes) : List Event :=
  [.select 3 { read := true } ⟨⟨[], .eof⟩, [], .conn 4 true⟩ [],
    .select 4 { read := true } ⟨⟨chunks, .error .EAGAIN⟩, [], .error⟩ [],
    .select 4 { read := true } ⟨⟨[], .eof⟩, [], .error⟩ []]

/-- A timer replies to a client that has gone: the lookup makes an entry for it,
and the assertion fails. -/
theorem reply_after_disconnect :
    ¬ ∀ (stack : Stack) (lfd : Nat) (es : List Event),
      AllReached (step stack)
        (fun w => ∀ reply, ¬ Connected reply.1 w → 0 < reply.2.len → Harmless stack reply w)
        (TcpServer.bind lfd {}) es := by
  intro h
  have hvanished := h ⟨List.replicate 12 0, List.replicate 4 0, rfl, rfl⟩ 3 (comesAndGoes []) _
    (List.prefix_refl _) _ rfl (1, (ProtoMsg.make 1 1).write [65]) (by decide) (by decide)
  obtain ⟨w', hok, -, -⟩ := hvanished
  cases hok

/-! ### `conn_msgs` -/

/-- Every key of `conn_msgs` is the id of a connection in `streams`. -/
def KeysLive (w : TcpServer MsgTables) : Prop :=
  ∀ a, (w.ext.connMsgs a).isSome = true → a ∈ w.streams

/-- If the event ends a connection, `conn_msgs` has no entry for it then: when its
read handler is entered, or its write handler in the state `w'` that the read
handler leaves. -/
def KeepsMsgs (stack : Stack) (w : TcpServer MsgTables) : Event → Prop
  | .select fd events io replies =>
      ∀ a, w.ploop.handles fd = some (.stream a) →
        let w := w.modify a fun s => { s with revents := events }
        (EndsRead io a w → w.ext.connMsgs a = none) ∧
          ∀ w', readHalf stack replies io a w = .ok w' →
            EndsWrite io a w' → w'.ext.connMsgs a = none
  | .sendMsg _ => True

theorem Half.keysLive_iff (h : Half a P w w') (hlive : KeysLive w) (ha : a ∈ w.streams) :
    KeysLive w' ↔ (P → w.ext.connMsgs a = none) := by
  constructor
  · intro hlive' hP
    have hgone : a ∉ w'.streams := fun hmem => ((h.streams a).mp hmem).2 rfl hP
    have hnone : ¬ (w'.ext.connMsgs a).isSome = true := fun hsome => hgone (hlive' a hsome)
    rw [h.connMsgs a fun _ => hP] at hnone
    simpa using hnone
  · intro hnone b hsome
    rw [h.streams b]
    by_cases hba : b = a
    · subst hba
      refine ⟨ha, fun _ hP => ?_⟩
      rw [h.connMsgs b fun _ => hP, hnone hP] at hsome
      cases hsome
    · rw [h.connMsgs b fun heq => absurd heq hba] at hsome
      exact ⟨hlive b hsome, fun heq => absurd heq hba⟩

/-- The two halves of a dispatch keep the keys live exactly when each does. -/
theorem handleEvent_keysLive_iff (h : Inv always none w) (hlive : KeysLive w)
    (ha : a ∈ w.streams) (io : Io) (replies : List (List Reply)) :
    Ensures (TcpStream.handleEvent (server stack replies) io a w) KeysLive (fun _ => True) ↔
      (EndsRead io a w → w.ext.connMsgs a = none) ∧
        ∀ w', readHalf stack replies io a w = .ok w' →
          EndsWrite io a w' → w'.ext.connMsgs a = none := by
  have hread := readHalf_half stack (p := False) h ha io replies fun hp => hp.elim
  rw [handleEvent_eq stack]
  cases hresult : readHalf stack replies io a w with
  | error x =>
    -- the close of a read that is over cannot fail
    have hnot : ¬ EndsRead io a w := by
      intro hends
      have hleaves : Ensures (TcpStream.handleRead (server stack replies) io.recv a w)
          (Leaves a ((w.heap a).pwriteBuf = []) w) fun _ => False :=
        handleRead_leaves rfl h ha hends.2.1
      rw [readHalf, if_pos hends.1] at hresult
      exact hleaves.of_error hresult
    simp [hnot]
  | ok w₁ =>
    obtain ⟨h₁, hhalf₁⟩ := hread.of_ok hresult
    have hwrite := writeHalf_half stack (a := a) h₁ io replies
    simp only [ok_bind, Except.ok.injEq, forall_eq']
    cases hresult' : writeHalf stack replies io a w₁ with
    | error x => exact (hwrite.of_error hresult').elim
    | ok w₂ =>
      obtain ⟨-, hhalf₂⟩ := hwrite.of_ok hresult'
      by_cases hends : EndsRead io a w
      · -- the connection has left: no event of it is handled any more
        have hgone : a ∉ w₁.streams := fun hmem => ((hhalf₁.streams a).mp hmem).2 rfl hends
        have hquiet : (w₁.heap a).revents = {} := (h₁.gone a hgone).1
        have hsame : w₂ = w₁ := by
          simpa [writeHalf, hquiet] using hresult'.symm
        have hnot : ¬ EndsWrite io a w₁ := by simp [EndsWrite, hquiet]
        rw [hsame, ensures_ok, hhalf₁.keysLive_iff hlive ha]
        simp [hnot]
      · have hmem : a ∈ w₁.streams := (hhalf₁.streams a).mpr ⟨ha, fun _ => hends⟩
        have hlive₁ : KeysLive w₁ :=
          (hhalf₁.keysLive_iff hlive ha).mpr fun he => absurd he hends
        rw [ensures_ok, hhalf₂.keysLive_iff hlive₁ hmem]
        simp [hends]

theorem sendMsg_keysLive (h : Inv always none w) (hlive : KeysLive w) (reply : Reply) :
    Ensures (sendMsg stack w reply) KeysLive fun _ => True := by
  by_cases hlen : 0 < reply.2.len
  · by_cases hconn : Connected reply.1 w
    · obtain ⟨w', hok, -, hext, hstreams, -⟩ := sendMsg_connected stack h hconn hlen
      rw [hok]
      intro b hb
      rw [hext] at hb
      rw [hstreams]
      exact hlive b hb
    · rw [sendMsg_vanished stack hconn hlen]
      trivial
  · rw [sendMsg_empty stack hlen]
    trivial

theorem newConnect_keysLive (hlive : KeysLive w) (fd : Nat) (peer : Bool) :
    Ensures (TcpServer.newConnect fd peer w) KeysLive fun _ => True := by
  rw [TcpServer.newConnect_eq]
  split
  · split
    · trivial
    · intro b hb
      exact Finset.mem_insert_of_mem (hlive b hb)
  · trivial

theorem step_keysLive_iff (h : Inv always none w) (hlive : KeysLive w) (e : Event) :
    Ensures (step stack w e) KeysLive (fun _ => True) ↔ KeepsMsgs stack w e := by
  cases e with
  | sendMsg reply => exact iff_of_true (sendMsg_keysLive stack h hlive reply) trivial
  | select fd events io replies =>
    simp only [MsgTables.step, doSelect, KeepsMsgs]
    cases hfd : w.ploop.handles fd with
    | none => simp [TcpServer.abort]
    | some p =>
      cases p with
      | acceptor =>
        have hkeeps : Ensures (if events.read = true then
            Acceptor.handleRead (server stack replies) io.accept w else .ok w) KeysLive
            fun _ => True := by
          split
          · unfold Acceptor.handleRead
            split
            · trivial
            · exact newConnect_keysLive hlive _ _
          · exact hlive
        simpa using hkeeps
      | stream a =>
        have ha := (h.handled fd a hfd).1
        have hiff := handleEvent_keysLive_iff stack (h.dispatched ha events)
          hlive ha io replies
        dsimp only
        rw [hiff]
        simp

/-- **What a closed connection leaves behind.** In every state that a run reaches
the keys of `conn_msgs` are ids of connections in `streams`, exactly when every
connection the run ends had no entry there when it ended: nothing takes one out. -/
theorem conn_msgs_live_iff (stack : Stack) (lfd : Nat) (es : List Event) :
    AllReached (step stack) KeysLive (TcpServer.bind lfd {}) es ↔
      Every (step stack) (KeepsMsgs stack) (TcpServer.bind lfd {}) es := by
  apply good_iff_every (I := Opened) (L := fun _ _ => True)
  · intro w e h _
    exact (h.step stack e).mono (fun _ => id) fun _ _ => trivial
  · intro w e h _ hlive
    exact step_keysLive_iff stack h.inv hlive e
  · exact opened_bind lfd
  · intro a ha
    cases ha
  · exact every_of_forall fun _ _ => trivial

/-- A client sends two bytes of a length word and closes: its message stays. -/
theorem partial_frame_stays :
    ¬ ∀ (stack : Stack) (lfd : Nat) (es : List Event),
      AllReached (step stack) KeysLive (TcpServer.bind lfd {}) es := by
  intro h
  have hlive : KeysLive _ := h ⟨List.replicate 12 0, List.replicate 4 0, rfl, rfl⟩ 3
    (comesAndGoes [[1, 0]]) _ (List.prefix_refl _) _ rfl
  exact absurd (hlive 1 rfl) (by decide)

end MsgTables

end MixServer.Server
