import MixServer.Client.Connector

/-!
When the client is stuck.

The retry timer re-arms itself until it finds the client connected; from then on
nothing watches the connection. `never_stuck` says that a run in which no
established connection is lost without a pending timer always has a connection,
a timer, or an attempt whose failure shuts the loop down.
-/

namespace MixServer.ClientLoop

open Lib Net

variable {c : ClientLoop}

/-- Somebody still cares: the loop is shutting down, the client is connected, a
`_re_connect` timer is pending, or an attempt is under way whose failure shuts
the loop down. -/
def Alive (c : ClientLoop) : Prop :=
  c.shutdown = false → c.status = .CONNECTED ∨ 0 < c.timers ∨
    c.status = .CONNECTING ∧ maxRetryCout < c.retryCount

/-- The status of the client, its connector and the loop's tables agree. -/
structure Inv (c : ClientLoop) : Prop where
  closed : c.status = .CLOSED →
    c.pconn.registered = false ∧ (c.shutdown = true ∨ c.retryCount ≤ maxRetryCout)
  connecting : c.status = .CONNECTING →
    c.pconn.registered = true ∧ c.pconn.status ≠ .CONNECTED
  connected : c.status = .CONNECTED →
    c.pconn.registered = true ∧ c.pconn.status = .CONNECTED ∧ c.retryCount = 0
  alive : Alive c

/-- The client after `Connector::close` of a registered connector. -/
def lost (c : ClientLoop) : ClientLoop :=
  { c.log .onClose with
    pconn := { c.pconn with status := .CLOSED, registered := false, revents := {} }
    status := .CLOSED
    shutdown := c.shutdown || decide (maxRetryCout < c.retryCount) }

theorem closeConn_eq (h : c.pconn.registered = true) : c.closeConn = .ok c.lost := by
  simp only [closeConn, onClose, h, if_true, lost, log]
  split
  · rename_i hmax
    have hmax' : maxRetryCout < c.retryCount := hmax
    simp [hmax']
  · rename_i hmax
    have hmax' : ¬ maxRetryCout < c.retryCount := hmax
    simp [hmax']

/-- Losing the connection is harmless as long as a timer is pending, and so is
losing one that was never established. -/
theorem Inv.lost (h : Inv c) (htimer : c.status = .CONNECTED → 0 < c.timers) : Inv c.lost where
  closed _ := by
    refine ⟨rfl, ?_⟩
    by_cases hmax : maxRetryCout < c.retryCount
    · left
      simp [ClientLoop.lost, hmax]
    · right
      exact not_lt.mp hmax
  connecting hstatus := by cases hstatus
  connected hstatus := by cases hstatus
  alive hshutdown := by
    obtain ⟨hrunning, hretry⟩ : c.shutdown = false ∧ c.retryCount ≤ maxRetryCout := by
      simpa [ClientLoop.lost] using hshutdown
    right
    left
    rcases h.alive hrunning with hconnected | htimers | ⟨-, hmax⟩
    · exact htimer hconnected
    · exact htimers
    · omega

/-- A change that leaves the statuses, the counters and the tables alone. -/
theorem Inv.of_same (h : Inv c) {c' : ClientLoop} (hstatus : c'.status = c.status)
    (hconn : c'.pconn.status = c.pconn.status) (hreg : c'.pconn.registered = c.pconn.registered)
    (hretry : c'.retryCount = c.retryCount) (htimers : c'.timers = c.timers)
    (hshutdown : c'.shutdown = c.shutdown) : Inv c' where
  closed := by
    rw [hstatus, hreg, hshutdown, hretry]
    exact h.closed
  connecting := by
    rw [hstatus, hreg, hconn]
    exact h.connecting
  connected := by
    rw [hstatus, hreg, hconn, hretry]
    exact h.connected
  alive := by
    rw [Alive, hshutdown, hstatus, htimers, hretry]
    exact h.alive

theorem Inv.not_connected (h : Inv c) (hconn : c.pconn.status = .CONNECTING) :
    c.status ≠ .CONNECTED := by
  intro hstatus
  have hconnected := (h.connected hstatus).2.1
  rw [hconn] at hconnected
  cases hconnected

theorem Inv.updateEvent (h : Inv c) (events : Events) :
    Ensures (c.updateEvent events) Inv fun _ => True := by
  simp only [ClientLoop.updateEvent]
  split
  · exact h.of_same rfl rfl rfl rfl rfl rfl
  · trivial

theorem Inv.send (h : Inv c) (p : Bytes) : Ensures (c.send p) Inv fun _ => True := by
  have hwritten : Inv { c with pconn := { c.pconn with pwriteBuf := c.pconn.pwriteBuf ++ p } } :=
    h.of_same rfl rfl rfl rfl rfl rfl
  exact hwritten.updateEvent _

/-! ### The timer -/

/-- `_start_connect`, while the count allows another attempt and the caller
keeps the timer going. -/
theorem startConnect_spec (h : c.status = .CLOSED → c.retryCount ≤ maxRetryCout)
    (ret : ConnectRet) :
    Ensures (c.startConnect_ ret) (fun c' => Inv { c' with timers := c'.timers + 1 })
      fun _ => True := by
  simp only [startConnect_]
  split
  · rename_i hclosed
    have halive : ∀ {c' : ClientLoop}, Alive { c' with timers := c'.timers + 1 } :=
      fun _ => .inr (.inl (Nat.succ_pos _))
    have hopen : ∀ {c' : ClientLoop}, c'.status = .CONNECTING → c'.pconn.registered = true →
        c'.pconn.status ≠ .CONNECTED → Inv { c' with timers := c'.timers + 1 } := by
      intro c' hconnecting hreg hconn
      constructor
      · intro hstatus
        cases hconnecting.symm.trans hstatus
      · exact fun _ => ⟨hreg, hconn⟩
      · intro hstatus
        cases hconnecting.symm.trans hstatus
      · exact halive
    cases ret with
    | error =>
      constructor
      · intro _
        exact ⟨rfl, .inr (h hclosed)⟩
      · intro hstatus
        cases hclosed.symm.trans hstatus
      · intro hstatus
        cases hclosed.symm.trans hstatus
      · exact halive
    | zero => exact hopen rfl rfl (by simp)
    | inProgress => exact hopen rfl rfl (by simp)
  · trivial

/-- A `_re_connect` that tries again does so from a closed client. -/
theorem retry_eq (hne : c.status ≠ .CONNECTED)
    (hreg : c.status = .CONNECTING → c.pconn.registered = true) (ret : ConnectRet) :
    ∃ c₁ : ClientLoop, c₁.status = .CLOSED ∧ c₁.retryCount = c.retryCount ∧
      (do
        let c ← if c.status = .CONNECTING then c.closeConn else .ok c
        let c ← if c.status = .CLOSED then c.startConnect_ ret else .ok c
        return { c with timers := c.timers + 1 } : Result) =
      (c₁.startConnect_ ret >>= fun c => .ok { c with timers := c.timers + 1 }) := by
  by_cases hconnecting : c.status = .CONNECTING
  · refine ⟨c.lost, rfl, rfl, ?_⟩
    rw [if_pos hconnecting, closeConn_eq (hreg hconnecting), ok_bind]
    rfl
  · have hclosed : c.status = .CLOSED := by
      cases hstatus : c.status with
      | CLOSED => rfl
      | CONNECTING => exact absurd hstatus hconnecting
      | CONNECTED => exact absurd hstatus hne
    refine ⟨c, hclosed, rfl, ?_⟩
    rw [if_neg hconnecting, ok_bind]
    exact if_pos hclosed

/-- The part of `_re_connect` that tries again and re-arms the timer. -/
theorem retry_spec (hmax : c.retryCount ≤ maxRetryCout) (hne : c.status ≠ .CONNECTED)
    (hreg : c.status = .CONNECTING → c.pconn.registered = true) (ret : ConnectRet) :
    Ensures (do
      let c ← if c.status = .CONNECTING then c.closeConn else .ok c
      let c ← if c.status = .CLOSED then c.startConnect_ ret else .ok c
      return { c with timers := c.timers + 1 }) Inv fun _ => True := by
  obtain ⟨c₁, -, hcount, heq⟩ := retry_eq hne hreg ret
  rw [heq]
  exact (startConnect_spec (fun _ => hcount.trans_le hmax) ret).bind fun c' hc' => hc'

theorem Inv.reConnect (h : Inv c) (ret : ConnectRet) :
    Ensures (c.reConnect ret) Inv fun _ => True := by
  simp only [ClientLoop.reConnect]
  split
  · rename_i hmax
    -- the chain ends here: the last attempt is still under way, or all is over
    refine ⟨h.closed, h.connecting, h.connected, ?_⟩
    intro hrunning
    change c.shutdown = false at hrunning
    change c.status = .CONNECTED ∨ 0 < c.timers - 1 ∨
      c.status = .CONNECTING ∧ maxRetryCout < c.retryCount
    cases hstatus : c.status with
    | CLOSED =>
      rcases (h.closed hstatus).2 with hdown | hretry
      · rw [hrunning] at hdown
        cases hdown
      · exact absurd hmax (not_lt.mpr hretry)
    | CONNECTING => exact .inr (.inr ⟨rfl, hmax⟩)
    | CONNECTED => exact .inl rfl
  · rename_i hmax
    split
    · rename_i hconnected
      exact ⟨h.closed, h.connecting, h.connected, fun _ => .inl hconnected⟩
    · rename_i hconnected
      exact retry_spec (c := { c with timers := c.timers - 1 }) (not_lt.mp hmax) hconnected
        (fun hstatus => (h.connecting hstatus).1) ret

/-! ### Dispatch -/

/-- The receive loop ends the connection, or the send loop does. -/
def LosesConnection (c : ClientLoop) : ClientEvent → Prop
  | .select events io =>
      c.status = .CONNECTED ∧ (events.read ∧ io.recv.last.ends ∨
        events.write ∧ ((Socket.send c.pconn.pwriteBuf io.send).error.map Errno.fatal).getD false)
  | _ => False

instance (c : ClientLoop) (e : ClientEvent) : Decidable (LosesConnection c e) :=
  match e with
  | .select _ _ => inferInstanceAs (Decidable (_ ∧ _))
  | .timer _ | .send _ | .close => .isFalse id

variable {proto : Bytes → Except Abort Bytes} {hello : Bytes} {io : ClientIo}

/-- Reading has left the connection alone: what `handle_write` looks at is as
before. -/
structure Untouched (c c' : ClientLoop) : Prop where
  registered : c'.pconn.registered = true
  status : c'.status = c.status
  pwriteBuf : c'.pconn.pwriteBuf = c.pconn.pwriteBuf
  revents : c'.pconn.revents = c.pconn.revents
  timers : c'.timers = c.timers

/-- After `handle_read` the connector is closed and no event of it is handled
any more, or the connection is as before. -/
theorem Inv.handleRead (h : Inv c) (hreg : c.pconn.registered = true)
    (hloses : c.status = .CONNECTED → io.recv.last.ends → 0 < c.timers) :
    Ensures (c.handleRead proto io)
      (fun c' => Inv c' ∧ (c'.pconn.revents.write = false ∨ Untouched c c')) fun _ => True := by
  simp only [ClientLoop.handleRead]
  split
  · trivial
  · rename_i hconn
    have hne := h.not_connected hconn
    split
    · exact ⟨h, .inr ⟨hreg, rfl, rfl, rfl, rfl⟩⟩
    · rw [closeConn_eq hreg]
      exact ⟨h.lost fun hstatus => absurd hstatus hne, .inl rfl⟩
  · rename_i hconn
    have hreceived : Inv { c.log (.received io.recv.chunks.flatten) with
        pconn := { c.pconn with preadBuf := (Socket.recv c.pconn.preadBuf io.recv).1 } } :=
      h.of_same rfl rfl rfl rfl rfl rfl
    split
    · rename_i hends
      rw [closeConn_eq (by exact hreg)]
      exact ⟨hreceived.lost fun hstatus => hloses hstatus hends, .inl rfl⟩
    · simp only [onRead]
      split
      · trivial
      · exact ⟨hreceived.of_same rfl rfl rfl rfl rfl rfl, .inr ⟨hreg, rfl, rfl, rfl, rfl⟩⟩

/-- `handle_write` of a registered connector. -/
theorem Inv.handleWrite (h : Inv c) (hreg : c.pconn.registered = true)
    (hloses : c.status = .CONNECTED →
      ((Socket.send c.pconn.pwriteBuf io.send).error.map Errno.fatal).getD false → 0 < c.timers) :
    Ensures (c.handleWrite hello io) Inv fun _ => True := by
  simp only [ClientLoop.handleWrite]
  split
  · trivial
  · rename_i hconn
    have hne := h.not_connected hconn
    split
    · simp only [ClientLoop.updateEvent, hreg, if_true, ok_bind, onConnected, ClientLoop.send]
      constructor
      · intro hstatus
        cases hstatus
      · intro hstatus
        cases hstatus
      · intro _
        exact ⟨rfl, rfl, rfl⟩
      · exact fun _ => .inl rfl
    · rw [closeConn_eq hreg]
      exact h.lost fun hstatus => absurd hstatus hne
  · have hsent : Inv { c with pconn := { c.pconn with
        pwriteBuf := (Socket.send c.pconn.pwriteBuf io.send).pbuf } } :=
      h.of_same rfl rfl rfl rfl rfl rfl
    split
    · rename_i hfatal
      rw [closeConn_eq (by exact hreg)]
      exact hsent.lost fun hstatus => hloses hstatus hfatal
    · split
      · exact hsent.updateEvent _
      · exact hsent

theorem Inv.doSelect (h : Inv c) {events : Events}
    (hloses : LosesConnection c (.select events io) → 0 < c.timers) :
    Ensures (c.doSelect proto hello events io) Inv fun _ => True := by
  have hset : Inv { c with pconn := { c.pconn with revents := events } } :=
    h.of_same rfl rfl rfl rfl rfl rfl
  refine doSelect_ensures (J := fun c' => Inv c' ∧ (c'.pconn.revents.write = false ∨
    Untouched { c with pconn := { c.pconn with revents := events } } c')) h ?_ ?_ ?_
      fun _ => And.left
  · intro hreg
    exact ⟨hset, .inr ⟨hreg, rfl, rfl, rfl, rfl⟩⟩
  · intro hreg hread
    exact hset.handleRead hreg fun hstatus hends => hloses ⟨hstatus, .inl ⟨hread, hends⟩⟩
  · rintro c' ⟨hinv, hnone | huntouched⟩ hrevents
    · rw [hnone] at hrevents
      cases hrevents
    · apply hinv.handleWrite huntouched.registered
      rw [huntouched.status, huntouched.pwriteBuf, huntouched.timers]
      rw [huntouched.revents] at hrevents
      intro hstatus hfatal
      exact hloses ⟨hstatus, .inr ⟨hrevents, hfatal⟩⟩

/-! ### Runs -/

theorem Inv.step (h : Inv c) {e : ClientEvent} (hloses : LosesConnection c e → 0 < c.timers) :
    Ensures (step proto hello c e) Inv fun _ => True := by
  cases e with
  | select events io => exact h.doSelect hloses
  | timer ret =>
    simp only [ClientLoop.step]
    split
    · exact h.reConnect ret
    · exact h
  | send p => exact h.send p
  | close =>
    refine ⟨?_, h.connecting, h.connected, ?_⟩
    · intro hclosed
      exact ⟨(h.closed hclosed).1, .inl rfl⟩
    · intro hrunning
      cases hrunning

theorem startConnect_inv (ret : ConnectRet) : Ensures (startConnect ret) Inv fun _ => True :=
  (startConnect_spec (c := {}) (fun _ => Nat.zero_le _) ret).bind fun _ hc => hc

/-- **The client is never stuck** in a run in which an established connection is
only lost while a `_re_connect` timer is pending. -/
theorem never_stuck (ret : ConnectRet) (hstart : startConnect ret = .ok c)
    {es : List ClientEvent} (hcond : Every (ClientLoop.step proto hello)
      (fun c e => LosesConnection c e → 0 < c.timers) c es) :
    AllReached (ClientLoop.step proto hello) Alive c es :=
  (allReached_of_every (fun _ _ h hloses => h.step hloses) ((startConnect_inv ret).of_ok hstart)
    hcond).mono fun _ h => h.alive

/-- The peer accepts and closes again before the timer has fired. -/
theorem never_stuck_early :
    ∃ c, startConnect .inProgress = .ok c ∧
      AllReached (ClientLoop.step (fun praw => .ok praw) []) Alive c
        [.select { write := true } ⟨true, ⟨[], .eof⟩, 0, []⟩,
          .select { read := true } ⟨true, ⟨[], .eof⟩, 0, []⟩] := by
  refine ⟨_, rfl, never_stuck .inProgress rfl ⟨?_, ?_⟩⟩
  · decide
  · rintro c' ⟨⟩
    exact ⟨by decide, fun _ _ => trivial⟩

/-- The timer finds the client connected and is not re-armed; when the peer then
closes, nothing is left that could connect again. -/
theorem never_stuck_late :
    ¬ ∀ (ret : ConnectRet) (c : ClientLoop) (es : List ClientEvent), startConnect ret = .ok c →
      AllReached (ClientLoop.step (fun praw => .ok praw) []) Alive c es := by
  intro h
  have hrun := h .inProgress _
    [.select { write := true } ⟨true, ⟨[], .eof⟩, 0, []⟩, .timer .error,
      .select { read := true } ⟨true, ⟨[], .eof⟩, 0, []⟩] rfl _ (List.prefix_refl _) _ rfl rfl
  revert hrun
  decide

end MixServer.ClientLoop
