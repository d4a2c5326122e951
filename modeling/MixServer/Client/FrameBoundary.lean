import MixServer.Client.Memory

/-!
Frames across reconnections.

The unread bytes of a connection go with its `Connector`; the half-read message
stays in the `Client`. `reconnect_on_boundary` says, over the memory of the read
buffer, that the messages of every connection are its own complete frames in a run
in which no connector is made while a message is half read, no connection ends
together with bytes that complete a frame, and no byte is lost in the buffer.
-/

namespace MixServer

open Lib Net

namespace ClientLoop

variable {c : ClientLoop}

/-! ### What belongs to a connection -/

/-- The account of the latest connector: how many there have been, the bytes it
has received and the `on_msg` calls since it was made. -/
structure Session where
  number : Nat := 0
  received : Bytes := []
  handled : List Bytes := []
deriving DecidableEq, Repr

def Session.next (s : Session) : ClientObs → Session
  | .startConnect => { number := s.number + 1 }
  | .received data => { s with received := s.received ++ data }
  | .onMsg payload => { s with handled := s.handled ++ [payload] }
  | .onConnected | .onClose => s

def session (tr : List ClientObs) : Session := tr.foldl Session.next {}

theorem session_snoc (tr : List ClientObs) (o : ClientObs) :
    session (tr ++ [o]) = (session tr).next o := by
  simp only [session, List.foldl_append, List.foldl_cons, List.foldl_nil]

theorem session_onMsg (tr : List ClientObs) (payloads : List Bytes) :
    session (tr ++ payloads.map .onMsg) =
      { session tr with handled := (session tr).handled ++ payloads } := by
  induction payloads using List.reverseRecOn with
  | nil => simp
  | append_singleton payloads p ih =>
    rw [List.map_append, ← List.append_assoc]
    change session (_ ++ [_]) = _
    rw [session_snoc, ih, Session.next, List.append_assoc]

/-- The `on_msg` calls of the latest connection are the complete frames it has
received of its stream of payloads. -/
def HandlesOwnFrames (payloads : Nat → List Bytes) (c : ClientLoop) : Prop :=
  (session c.trace).handled =
    completed (payloads (session c.trace).number) (session c.trace).received.length

instance (payloads : Nat → List Bytes) (c : ClientLoop) :
    Decidable (HandlesOwnFrames payloads c) :=
  inferInstanceAs (Decidable (_ = _))

/-- What the peer sends on a connection is a stream of frames. -/
def Streams (payloads : Nat → List Bytes) (c : ClientLoop) : ClientEvent → Prop
  | .select _ io =>
      (session c.trace).received ++ io.recv.chunks.flatten <+:
        encode (payloads (session c.trace).number)
  | _ => True

instance (payloads : Nat → List Bytes) (c : ClientLoop) :
    ∀ e, Decidable (Streams payloads c e)
  | .select _ _ => inferInstanceAs (Decidable (_ <+: _))
  | .timer _ | .send _ | .close => .isTrue trivial

/-- No connector is made while a message is half read, and no connection ends
together with bytes that complete a frame. -/
def Whole (c : ClientLoop) : ClientEvent → Prop
  | .select events io =>
      events.read → io.recv.last.ends →
        frames.next (pend c.pmsg c.pconn.preadBuf ++ io.recv.chunks.flatten) = none
  | .timer _ => c.status ≠ .CONNECTED → c.retryCount ≤ maxRetryCout → c.pmsg.len = 0
  | _ => True

instance (c : ClientLoop) : ∀ e, Decidable (Whole c e)
  | .select _ _ => inferInstanceAs (Decidable (_ → _ → _ = none))
  | .timer _ => inferInstanceAs (Decidable (_ → _ → _ = 0))
  | .send _ | .close => .isTrue trivial

/-! ### The invariant -/

theorem completed_zero (payloads : List Bytes) : completed payloads 0 = [] := by
  cases payloads with
  | nil => rfl
  | cons p payloads => simp [completed]

/-- The latest connection is on track: its messages are its own frames, and what
is pending is the rest of what it has received. -/
structure OnTrack (payloads : Nat → List Bytes) (c : ClientLoop) : Prop where
  between : c.pmsg.Between
  stream : (session c.trace).received <+: encode (payloads (session c.trace).number)
  handled : HandlesOwnFrames payloads c
  pending : c.pconn.status ≠ .CLOSED →
    pend c.pmsg c.pconn.preadBuf = (frames.drain (session c.trace).received).2

variable {payloads : Nat → List Bytes}

/-- What does not touch the reading. -/
theorem OnTrack.of_same (h : OnTrack payloads c) {c' : ClientLoop} (hpmsg : c'.pmsg = c.pmsg)
    (hbuf : c'.pconn.preadBuf = c.pconn.preadBuf)
    (hsession : session c'.trace = session c.trace)
    (hstatus : c'.pconn.status ≠ .CLOSED → c.pconn.status ≠ .CLOSED) : OnTrack payloads c' where
  between := by
    rw [hpmsg]
    exact h.between
  stream := by
    rw [hsession]
    exact h.stream
  handled := by
    rw [HandlesOwnFrames, hsession]
    exact h.handled
  pending hopen := by
    rw [hpmsg, hbuf, hsession]
    exact h.pending (hstatus hopen)

theorem OnTrack.updateEvent (h : OnTrack payloads c) (events : Events) :
    Ensures (c.updateEvent events) (OnTrack payloads) fun _ => True := by
  simp only [ClientLoop.updateEvent]
  split
  · exact h.of_same rfl rfl rfl id
  · trivial

theorem OnTrack.send (h : OnTrack payloads c) (p : Bytes) :
    Ensures (c.send p) (OnTrack payloads) fun _ => True := by
  have hwritten : OnTrack payloads
      { c with pconn := { c.pconn with pwriteBuf := c.pconn.pwriteBuf ++ p } } :=
    h.of_same rfl rfl rfl id
  exact hwritten.updateEvent _

/-- A closed connector has nothing on track but its account. -/
theorem closeConn_onTrack (hbetween : c.pmsg.Between)
    (hstream : (session c.trace).received <+: encode (payloads (session c.trace).number))
    (hhandled : HandlesOwnFrames payloads c) :
    Ensures c.closeConn (fun c' => OnTrack payloads c' ∧ c'.pmsg = c.pmsg ∧
      c'.pconn.revents.write = false) fun _ => True := by
  have hsession : session (c.trace ++ [.onClose]) = session c.trace := session_snoc _ _
  have hclosed : ∀ {c' : ClientLoop}, c'.pmsg = c.pmsg → c'.trace = c.trace ++ [.onClose] →
      c'.pconn.status = .CLOSED → OnTrack payloads c' := by
    intro c' hpmsg htrace hstatus
    rw [← htrace] at hsession
    constructor
    · rw [hpmsg]
      exact hbetween
    · rw [hsession]
      exact hstream
    · rw [HandlesOwnFrames, hsession]
      exact hhandled
    · exact fun hne => absurd hstatus hne
  simp only [ClientLoop.closeConn, onClose]
  split
  · split
    · exact ⟨hclosed rfl rfl rfl, rfl, rfl⟩
    · exact ⟨hclosed rfl rfl rfl, rfl, rfl⟩
  · trivial

/-- A new connector, while no message is half read. -/
theorem OnTrack.startConnect_ (h : OnTrack payloads c) (hlen : c.pmsg.len = 0) (ret : ConnectRet) :
    Ensures (c.startConnect_ ret) (OnTrack payloads) fun _ => True := by
  have hsession : session (c.trace ++ [.startConnect]) =
      { number := (session c.trace).number + 1 } := session_snoc _ _
  have hnew : ∀ {c' : ClientLoop}, c'.pmsg = c.pmsg → c'.pconn.preadBuf = [] →
      c'.trace = c.trace ++ [.startConnect] → OnTrack payloads c' := by
    intro c' hpmsg hbuf htrace
    rw [← htrace] at hsession
    constructor
    · rw [hpmsg]
      exact h.between
    · rw [hsession]
      exact List.nil_prefix
    · rw [HandlesOwnFrames, hsession]
      exact (completed_zero _).symm
    · intro _
      rw [hpmsg, hbuf, hsession, frames_drain_nil]
      exact if_pos hlen
  simp only [ClientLoop.startConnect_]
  split
  · cases ret with
    | error => exact hnew rfl rfl rfl
    | zero => exact hnew rfl rfl rfl
    | inProgress => exact hnew rfl rfl rfl
  · trivial

theorem OnTrack.reConnect (h : OnTrack payloads c) (ret : ConnectRet)
    (hwhole : c.status ≠ .CONNECTED → c.retryCount ≤ maxRetryCout → c.pmsg.len = 0) :
    Ensures (c.reConnect ret) (OnTrack payloads) fun _ => True := by
  have htimers : ∀ {c : ClientLoop} {n : Nat}, OnTrack payloads c →
      OnTrack payloads { c with timers := n } := fun h => h.of_same rfl rfl rfl id
  simp only [ClientLoop.reConnect]
  split
  · exact htimers h
  · rename_i hmax
    split
    · exact htimers h
    · rename_i hconnected
      have hlen := hwhole hconnected (not_lt.mp hmax)
      have htail : ∀ {c : ClientLoop}, OnTrack payloads c → c.pmsg.len = 0 →
          Ensures (do
            let c ← if c.status = .CLOSED then c.startConnect_ ret else .ok c
            return { c with timers := c.timers + 1 }) (OnTrack payloads) fun _ => True := by
        intro c h hlen
        split
        · exact (h.startConnect_ hlen ret).bind fun c' hc' => htimers hc'
        · exact htimers h
      split
      · have hthis : OnTrack payloads { c with timers := c.timers - 1 } := htimers h
        apply (closeConn_onTrack hthis.between hthis.stream hthis.handled).bind
        rintro c' ⟨hc', hpmsg, -⟩
        apply htail hc'
        rw [hpmsg]
        exact hlen
      · exact htail (htimers h) hlen

/-! ### Reading -/

variable (erase : Bytes → Bytes) {hello : Bytes} {io : ClientIo}

/-- The bytes of one receive loop, in front of an `on_read`. -/
theorem OnTrack.onRead (h : OnTrack payloads c)
    (hp : ∀ n, ∀ p ∈ payloads n, 1 ≤ p.length ∧ p.length < 2 ^ 31) {data : Bytes}
    (hopen : c.pconn.status ≠ .CLOSED)
    (hstream : (session c.trace).received ++ data <+: encode (payloads (session c.trace).number)) :
    Ensures ({ c.log (.received data) with
        pconn := { c.pconn with preadBuf := c.pconn.preadBuf ++ data } }.onRead
          fun praw => .ok (erase praw)) (OnTrack payloads) fun _ => True := by
  obtain ⟨hcompleted, hgood⟩ := drain_encode (hp _) hstream
  have hpend : pend c.pmsg (c.pconn.preadBuf ++ data) =
      (frames.drain (session c.trace).received).2 ++ data := by
    rw [← h.pending hopen]
    exact pend_append _ _ _
  have hdrain := frames.drain_append (session c.trace).received data
  rw [← hpend] at hdrain
  obtain ⟨r, hread, hhandled, hbetween, hrest⟩ := Client.onReadN_spec erase
    (c := { preadBuf := c.pconn.preadBuf ++ data, pmsg := c.pmsg }) h.between
    (Nat.lt_succ_self _) (by rwa [hdrain] at hgood)
  have hhandled' : r.handled = (frames.drain (pend c.pmsg (c.pconn.preadBuf ++ data))).1 := hhandled
  have hsession : session (c.trace ++ [.received data] ++ r.handled.map .onMsg) =
      { number := (session c.trace).number
        received := (session c.trace).received ++ data
        handled := (session c.trace).handled ++ r.handled } := by
    rw [session_onMsg, session_snoc]
    rfl
  have hread' : Client.onRead (fun praw => .ok (erase praw))
      { preadBuf := c.pconn.preadBuf ++ data, pmsg := (c.log (.received data)).pmsg } = .ok r :=
    hread
  simp only [ClientLoop.onRead, hread', ensures_ok]
  have hnext : ∀ {c' : ClientLoop}, c'.pmsg = r.pmsg → c'.pconn.preadBuf = r.preadBuf →
      c'.trace = c.trace ++ [.received data] ++ r.handled.map .onMsg → OnTrack payloads c' := by
    intro c' hpmsg hbuf htrace
    rw [← htrace] at hsession
    constructor
    · rw [hpmsg]
      exact hbetween
    · rw [hsession]
      exact hstream
    · have hown : (session c.trace).handled ++ r.handled =
          (frames.drain ((session c.trace).received ++ data)).1 := by
        rw [hdrain, hhandled', h.handled, (drain_encode (hp _) h.stream).1]
      rw [HandlesOwnFrames, hsession]
      exact hown.trans hcompleted
    · intro _
      rw [hpmsg, hbuf, hsession, hrest, hdrain]
  exact hnext rfl rfl rfl

/-- `handle_read`; if the connection ends, it does so without completing a
frame. -/
theorem OnTrack.handleRead (h : OnTrack payloads c)
    (hp : ∀ n, ∀ p ∈ payloads n, 1 ≤ p.length ∧ p.length < 2 ^ 31)
    (hstream : (session c.trace).received ++ io.recv.chunks.flatten <+:
      encode (payloads (session c.trace).number))
    (hwhole : io.recv.last.ends →
      frames.next (pend c.pmsg c.pconn.preadBuf ++ io.recv.chunks.flatten) = none) :
    Ensures (c.handleRead (fun praw => .ok (erase praw)) io) (OnTrack payloads) fun _ => True := by
  simp only [ClientLoop.handleRead]
  split
  · trivial
  · split
    · exact h
    · exact (closeConn_onTrack h.between h.stream h.handled).mono (fun _ hc => hc.1) fun _ => id
  · rename_i hstatus
    have hopen : c.pconn.status ≠ .CLOSED := by
      rw [hstatus]
      simp
    simp only [Socket.recv_snd, Socket.recv_fst]
    split
    · rename_i hends
      have hsession : session (c.log (.received io.recv.chunks.flatten)).trace =
          { session c.trace with
            received := (session c.trace).received ++ io.recv.chunks.flatten } := session_snoc _ _
      -- the bytes that came with the end stay unread; they hold no frame
      have hown : HandlesOwnFrames payloads (c.log (.received io.recv.chunks.flatten)) := by
        have hdrain := frames.drain_append (session c.trace).received io.recv.chunks.flatten
        rw [← h.pending hopen, frames.drain_of_none (hwhole hends), List.append_nil] at hdrain
        rw [HandlesOwnFrames, hsession]
        simp only
        rw [← (drain_encode (hp _) hstream).1, hdrain, h.handled,
          (drain_encode (hp _) h.stream).1]
      have hstream' : (session (c.log (.received io.recv.chunks.flatten)).trace).received <+:
          encode (payloads (session (c.log (.received io.recv.chunks.flatten)).trace).number) := by
        rw [hsession]
        exact hstream
      exact (closeConn_onTrack (c := { c.log (.received io.recv.chunks.flatten) with
        pconn := { c.pconn with preadBuf := c.pconn.preadBuf ++ io.recv.chunks.flatten } })
        h.between hstream' hown).mono (fun _ hc => hc.1) fun _ => id
    · exact h.onRead erase hp hopen hstream

/-! ### Runs -/

theorem OnTrack.handleWrite (h : OnTrack payloads c) :
    Ensures (c.handleWrite hello io) (OnTrack payloads) fun _ => True := by
  simp only [ClientLoop.handleWrite]
  split
  · trivial
  · rename_i hstatus
    split
    · have hconnected : OnTrack payloads
          { c with pconn := { c.pconn with status := .CONNECTED } } :=
        h.of_same rfl rfl rfl fun _ => by rw [hstatus]; simp
      apply (hconnected.updateEvent _).bind
      intro c' hc'
      have hsession : session (c'.trace ++ [.onConnected]) = session c'.trace := session_snoc _ _
      have hready : OnTrack payloads
          { c'.log .onConnected with retryCount := 0, status := .CONNECTED } :=
        hc'.of_same rfl rfl hsession id
      exact hready.send hello
    · exact (closeConn_onTrack h.between h.stream h.handled).mono (fun _ hc => hc.1) fun _ => id
  · have hsent : OnTrack payloads { c with pconn := { c.pconn with
        pwriteBuf := (Socket.send c.pconn.pwriteBuf io.send).pbuf } } :=
      h.of_same rfl rfl rfl id
    split
    · exact (closeConn_onTrack hsent.between hsent.stream hsent.handled).mono (fun _ hc => hc.1)
        fun _ => id
    · split
      · exact hsent.updateEvent _
      · exact hsent

theorem OnTrack.step (h : OnTrack payloads c)
    (hp : ∀ n, ∀ p ∈ payloads n, 1 ≤ p.length ∧ p.length < 2 ^ 31) {e : ClientEvent}
    (hstream : Streams payloads c e) (hwhole : Whole c e) :
    Ensures (step (fun praw => .ok (erase praw)) hello c e) (OnTrack payloads) fun _ => True := by
  cases e with
  | select events io =>
    have hset : OnTrack payloads { c with pconn := { c.pconn with revents := events } } :=
      h.of_same rfl rfl rfl id
    exact doSelect_ensures h (fun _ => hset)
      (fun _ hread => hset.handleRead erase hp hstream (hwhole hread))
      (fun _ hc' _ => hc'.handleWrite) fun _ => id
  | timer ret =>
    simp only [ClientLoop.step]
    split
    · exact h.reConnect ret hwhole
    · exact h
  | send p => exact h.send p
  | close => exact h.of_same rfl rfl rfl id

theorem startConnect_onTrack (payloads : Nat → List Bytes) (ret : ConnectRet) :
    Ensures (startConnect ret) (OnTrack payloads) fun _ => True := by
  have hempty : OnTrack payloads {} := by
    refine ⟨.idle, List.nil_prefix, ?_, ?_⟩
    · exact (completed_zero _).symm
    · intro hopen
      exact absurd rfl hopen
  exact (hempty.startConnect_ rfl ret).bind fun c hc => hc.of_same rfl rfl rfl id

end ClientLoop

namespace MemClient

open ClientLoop (HandlesOwnFrames Streams Whole OnTrack)

variable {m : MemClient}

/-- **A reconnected client starts on a frame boundary**, and the messages of
every connection are its own complete frames, in a run in which no connector is
made while a message is half read, no connection ends together with bytes that
complete a frame, and no byte is lost in the read buffer. -/
theorem reconnect_on_boundary {payloads : Nat → List Bytes}
    (hp : ∀ n, ∀ p ∈ payloads n, 1 ≤ p.length ∧ p.length < 2 ^ 31) (shorten : Bytes → Bytes)
    (hello : Bytes) (ret : ConnectRet) (hstart : startConnect ret = .ok m)
    {es : List MemClientEvent}
    (hcond : Every (step (fun praw => .ok (shorten praw)) hello)
      (fun m e => (Streams payloads m.loop e.erase ∧ Whole m.loop e.erase) ∧ KeepsBytes m e)
      m es) :
    AllReached (step (fun praw => .ok (shorten praw)) hello)
      (fun m => HandlesOwnFrames payloads m.loop) m es := by
  have htrack : OnTrack payloads m.loop :=
    (((startConnect_views ret).ensures (ClientLoop.startConnect_onTrack payloads ret)).of_ok
      hstart).1
  have hsync : m.Sync := (startConnect_views ret).invariant.of_ok hstart
  refine (allReached_of_every (I := fun m => m.Sync ∧ OnTrack payloads m.loop) ?_
    ⟨hsync, htrack⟩ hcond).mono fun _ h => h.2.handled
  rintro m e ⟨h, hm⟩ ⟨⟨hstream, hwhole⟩, hkeeps⟩
  exact ((step_views h hkeeps).ensures (hm.step shorten hp hstream hwhole)).mono
    (fun _ hm' => hm'.symm) fun _ => id

/-- The first connection is lost inside a length word, the second one is not. -/
def lostInWord : List MemClientEvent :=
  [.select { write := true } ⟨true, ⟨[], .eof⟩, 0, []⟩,
    .select { read := true }
      ⟨true, ⟨[([1, 0, 0, 0, 5, 1, 0], fun _ => 0)], .error .EAGAIN⟩, 0, []⟩,
    .select { read := true } ⟨true, ⟨[], .eof⟩, 0, []⟩,
    .timer .inProgress,
    .select { write := true } ⟨true, ⟨[], .eof⟩, 0, []⟩,
    .select { read := true } ⟨true, ⟨[([1, 0, 0, 0, 9], fun _ => 0)], .error .EAGAIN⟩, 0, []⟩]

theorem reconnect_on_boundary_word :
    ∃ m, startConnect .inProgress = .ok m ∧
      AllReached (step (fun praw => .ok praw) [])
        (fun m => HandlesOwnFrames (fun n => if n = 1 then [[5], [6]] else [[9]]) m.loop) m
        lostInWord := by
  obtain ⟨m, hstart, hloop⟩ := exists_startConnect .inProgress rfl
  obtain ⟨c, hc, hfew⟩ : ∃ c, MixServer.startConnect .inProgress = .ok c ∧
      Every (ClientLoop.step (fun praw => .ok praw) [])
        (fun c e => (Streams (fun n => if n = 1 then [[5], [6]] else [[9]]) c e ∧ Whole c e) ∧
          Small c e) c (lostInWord.map MemClientEvent.erase) :=
    ⟨_, rfl, by decide⟩
  cases hloop.symm.trans hc
  have hroomy := (startConnect_roomy .inProgress).of_ok hstart
  refine ⟨m, hstart, reconnect_on_boundary ?_ (fun praw => praw) [] .inProgress hstart
    (every_of_small hroomy hfew)⟩
  intro n p hp
  split at hp <;> simp at hp
  · rcases hp with rfl | rfl <;> decide
  · subst hp
    decide

/-- The first connection is lost inside a payload; its message is completed with
a byte of the second one. -/
def lostInPayload : List MemClientEvent :=
  [.select { write := true } ⟨true, ⟨[], .eof⟩, 0, []⟩,
    .select { read := true } ⟨true, ⟨[([2, 0, 0, 0, 7], fun _ => 0)], .error .EAGAIN⟩, 0, []⟩,
    .select { read := true } ⟨true, ⟨[], .eof⟩, 0, []⟩,
    .timer .inProgress,
    .select { write := true } ⟨true, ⟨[], .eof⟩, 0, []⟩,
    .select { read := true } ⟨true, ⟨[([1, 0, 0, 0, 9], fun _ => 0)], .error .EAGAIN⟩, 0, []⟩]

theorem reconnect_on_boundary_payload :
    ¬ ∀ (payloads : Nat → List Bytes) (ret : ConnectRet) (m : MemClient)
      (es : List MemClientEvent),
      (∀ n, ∀ p ∈ payloads n, 1 ≤ p.length ∧ p.length < 2 ^ 31) → startConnect ret = .ok m →
      Every (step (fun praw => .ok praw) []) (fun m e => Streams payloads m.loop e.erase) m es →
      AllReached (step (fun praw => .ok praw) [])
        (fun m => HandlesOwnFrames payloads m.loop) m es := by
  intro h
  obtain ⟨m, hstart, hloop⟩ := exists_startConnect .inProgress rfl
  obtain ⟨c, hc, hfew, c', hrun, hwrong⟩ : ∃ c, MixServer.startConnect .inProgress = .ok c ∧
      Every (ClientLoop.step (fun praw => .ok praw) [])
        (fun c e => Streams (fun n => if n = 1 then [[7, 8]] else [[9]]) c e ∧ Small c e) c
        (lostInPayload.map MemClientEvent.erase) ∧
      ∃ c', exec (ClientLoop.step (fun praw => .ok praw) []) c
        (lostInPayload.map MemClientEvent.erase) = .ok c' ∧
        ¬ HandlesOwnFrames (fun n => if n = 1 then [[7, 8]] else [[9]]) c' :=
    ⟨_, rfl, by decide, _, rfl, by decide⟩
  cases hloop.symm.trans hc
  have hroomy := (startConnect_roomy .inProgress).of_ok hstart
  have hreached := h (fun n => if n = 1 then [[7, 8]] else [[9]]) .inProgress m lostInPayload ?_
    hstart (every_and.mp (every_of_small hroomy hfew)).1 _ (List.prefix_refl _)
  · have hmap := (exec_small hroomy (every_and.mp hfew).2).map_eq
    cases hm' : exec (step (fun praw => .ok praw) []) m lostInPayload with
    | error x =>
      rw [hm', hrun] at hmap
      cases hmap
    | ok m' =>
      rw [hm', hrun] at hmap
      cases hmap
      exact hwrong (hreached m' hm')
  · intro n p hp
    split at hp <;> simp at hp <;> subst hp <;> decide

end MemClient

end MixServer
