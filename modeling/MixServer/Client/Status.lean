import MixServer.Client.Reconnect

/-!
The status of a connector that the loop knows.

`Connector::handle_read` and `handle_write` assert that the connector is
connecting or connected, and `_start_connect` registers it after any `_connect`
that does not return an error. `_connect` takes a positive return value of
`::connect` for success; the value of an immediate success is zero, and with it
the connector is registered while its status is still `CLOSED`.
-/

namespace MixServer

open Lib Net

/-- `Connector::_connect`: what it returns, and the connector after it. The branch for
`n>0` is never taken. -/
def Connector.connect_ (s : Connector) : ConnectRet → Int × Connector
  | .zero => (0, s)
  | .inProgress => (0, { s with status := .CONNECTING })
  | .error => (-1, s)

namespace ClientLoop

variable {c c' : ClientLoop} {proto : Bytes → Except Abort Bytes} {hello : Bytes} {io : ClientIo}

/-- `_start_connect` registers what `_connect` leaves. -/
theorem startConnect_eq (hclosed : c.status = .CLOSED) (ret : ConnectRet) :
    c.startConnect_ ret =
      let (n, pconn) := Connector.connect_ {} ret
      if n < 0 then
        .ok { c.log .startConnect with pconn := pconn }
      else
        .ok { c.log .startConnect with
          pconn := { pconn with registered := true }
          status := .CONNECTING
          retryCount := c.retryCount + 1 } := by
  simp only [startConnect_, if_pos hclosed]
  cases ret with
  | zero => rfl
  | inProgress => rfl
  | error => rfl

/-- A registered connector is connecting or connected. -/
def Sound (c : ClientLoop) : Prop :=
  c.pconn.registered = true → c.pconn.status = .CONNECTING ∨ c.pconn.status = .CONNECTED

/-- A client that is connecting has a registered connector. -/
def Linked (c : ClientLoop) : Prop := c.status = .CONNECTING → c.pconn.registered = true

/-- The event makes the client call `_start_connect`, and `ret` is what `::connect` will
return. -/
def Dials (c : ClientLoop) (e : ClientEvent) (ret : ConnectRet) : Prop :=
  e = .timer ret ∧ 0 < c.timers ∧ c.retryCount ≤ maxRetryCout ∧ c.status ≠ .CONNECTED

theorem sound_lost : Sound c.lost := by
  intro hreg
  cases hreg

theorem linked_lost : Linked c.lost := by
  intro hstatus
  cases hstatus

/-- A change that leaves the statuses and the registration alone. -/
theorem Sound.of_same (h : Sound c) (hconn : c'.pconn.status = c.pconn.status)
    (hreg : c'.pconn.registered = c.pconn.registered) : Sound c' := by
  rw [Sound, hconn, hreg]
  exact h

theorem Linked.of_same (h : Linked c) (hstatus : c'.status = c.status)
    (hreg : c'.pconn.registered = c.pconn.registered) : Linked c' := by
  rw [Linked, hstatus, hreg]
  exact h

/-- The state between two steps, and the assertions that hold in it. -/
structure Steady (c : ClientLoop) : Prop where
  sound : Sound c
  linked : Linked c

theorem Steady.of_same (h : Steady c) (hstatus : c'.status = c.status)
    (hconn : c'.pconn.status = c.pconn.status) (hreg : c'.pconn.registered = c.pconn.registered) :
    Steady c' :=
  ⟨h.sound.of_same hconn hreg, h.linked.of_same hstatus hreg⟩

theorem steady_lost : Steady c.lost := ⟨sound_lost, linked_lost⟩

/-- The assertions at the head of `handle_read` and `handle_write` have not failed. -/
def NotClosed (x : ClientAbort) : Prop := x ≠ .handleClosed

theorem Steady.updateEvent (h : Steady c) (events : Events) :
    Ensures (c.updateEvent events) (fun c' => Steady c' ∧ c'.pconn.revents = c.pconn.revents)
      NotClosed := by
  simp only [ClientLoop.updateEvent]
  split
  · exact ⟨h.of_same rfl rfl rfl, rfl⟩
  · intro heq
    cases heq

/-! ### Dispatch -/

theorem Sound.not_closed (h : Sound c) (hreg : c.pconn.registered = true) :
    c.pconn.status ≠ .CLOSED := by
  intro hclosed
  rcases h hreg with hstatus | hstatus
  · cases hclosed.symm.trans hstatus
  · cases hclosed.symm.trans hstatus

/-- `handle_read` of a registered connector leaves it registered, or no event of it is
handled any more. -/
theorem Steady.handleRead (h : Steady c) (hreg : c.pconn.registered = true) :
    Ensures (c.handleRead proto io)
      (fun c' => Steady c' ∧ (c'.pconn.revents.write = true → c'.pconn.registered = true))
      NotClosed := by
  simp only [ClientLoop.handleRead]
  split
  · rename_i hclosed
    exact absurd hclosed (h.sound.not_closed hreg)
  · split
    · exact ⟨h, fun _ => hreg⟩
    · rw [closeConn_eq hreg]
      exact ⟨steady_lost, fun hwrite => by cases hwrite⟩
  · split
    · rw [closeConn_eq (by exact hreg)]
      exact ⟨steady_lost, fun hwrite => by cases hwrite⟩
    · simp only [onRead]
      split
      · intro heq
        cases heq
      · exact ⟨h.of_same rfl rfl rfl, fun _ => hreg⟩

theorem Steady.handleWrite (h : Steady c) (hreg : c.pconn.registered = true) :
    Ensures (c.handleWrite hello io) Steady NotClosed := by
  simp only [ClientLoop.handleWrite]
  split
  · rename_i hclosed
    exact absurd hclosed (h.sound.not_closed hreg)
  · split
    · simp only [ClientLoop.updateEvent, hreg, if_true, ok_bind, onConnected, ClientLoop.send]
      exact ⟨fun _ => .inr rfl, fun hstatus => by cases hstatus⟩
    · rw [closeConn_eq hreg]
      exact steady_lost
  · have hsent : Steady { c with pconn := { c.pconn with
        pwriteBuf := (Socket.send c.pconn.pwriteBuf io.send).pbuf } } := h.of_same rfl rfl rfl
    split
    · rw [closeConn_eq (by exact hreg)]
      exact steady_lost
    · split
      · exact (hsent.updateEvent _).mono (fun _ h' => h'.1) fun _ => id
      · exact hsent

theorem Steady.doSelect (h : Steady c) (events : Events) :
    Ensures (c.doSelect proto hello events io) Steady NotClosed := by
  have hset : Steady { c with pconn := { c.pconn with revents := events } } :=
    h.of_same rfl rfl rfl
  exact doSelect_ensures h (fun hreg => ⟨hset, fun _ => hreg⟩)
    (fun hreg _ => hset.handleRead hreg)
    (fun _ hc' hrevents => hc'.1.handleWrite (hc'.2 hrevents)) fun _ => And.left

/-! ### The timer -/

/-- `_start_connect` of a closed client. -/
theorem startConnect_steady (hclosed : c.status = .CLOSED) {ret : ConnectRet} (hret : ret ≠ .zero) :
    Ensures (c.startConnect_ ret) Steady NotClosed := by
  rw [startConnect_eq hclosed]
  cases ret with
  | zero => exact absurd rfl hret
  | inProgress => exact Steady.mk (fun _ => .inl rfl) fun _ => rfl
  | error =>
    refine Steady.mk ?_ ?_
    · intro hreg
      cases hreg
    · intro hstatus
      cases hclosed.symm.trans hstatus

theorem reConnect_eq (h : Linked c) (hmax : c.retryCount ≤ maxRetryCout)
    (hne : c.status ≠ .CONNECTED) (ret : ConnectRet) :
    ∃ c₁ : ClientLoop, c₁.status = .CLOSED ∧
      c.reConnect ret =
        (c₁.startConnect_ ret >>= fun c => .ok { c with timers := c.timers + 1 }) := by
  obtain ⟨c₁, hclosed, -, heq⟩ := retry_eq (c := { c with timers := c.timers - 1 }) hne h ret
  refine ⟨c₁, hclosed, ?_⟩
  simp only [reConnect, if_neg (not_lt.mpr hmax), if_neg hne]
  exact heq

theorem Steady.timer (h : Steady c) {ret : ConnectRet}
    (hret : Dials c (.timer ret) ret → ret ≠ .zero) (htimers : 0 < c.timers) :
    Ensures (c.reConnect ret) Steady NotClosed := by
  by_cases hmax : maxRetryCout < c.retryCount
  · simp only [reConnect, if_pos hmax]
    exact h.of_same rfl rfl rfl
  · by_cases hconnected : c.status = .CONNECTED
    · simp only [reConnect, if_neg hmax, if_pos hconnected]
      exact h.of_same rfl rfl rfl
    · obtain ⟨c₁, hclosed, heq⟩ := reConnect_eq h.linked (not_lt.mp hmax) hconnected ret
      rw [heq]
      have hret' := hret ⟨rfl, htimers, not_lt.mp hmax, hconnected⟩
      exact (startConnect_steady hclosed hret').bind fun c' h' => h'.of_same rfl rfl rfl

/-- After an immediate success the connector is registered and `CLOSED`. -/
theorem reConnect_zero (h : Linked c) (hmax : c.retryCount ≤ maxRetryCout)
    (hne : c.status ≠ .CONNECTED) : ¬ Ensures (c.reConnect .zero) Sound NotClosed := by
  obtain ⟨c₁, hclosed, heq⟩ := reConnect_eq h hmax hne .zero
  rw [heq, startConnect_eq hclosed]
  intro hsound
  rcases hsound rfl with hstatus | hstatus
  · cases hstatus
  · cases hstatus

/-! ### Runs -/

/-- The results of `::connect` that the run uses are not zero. -/
def NotAtOnce (c : ClientLoop) (e : ClientEvent) : Prop := ∀ ret, Dials c e ret → ret ≠ .zero

theorem Steady.step (h : Steady c) {e : ClientEvent} (hret : NotAtOnce c e) :
    Ensures (step proto hello c e) Steady NotClosed := by
  cases e with
  | select events io => exact h.doSelect events
  | timer ret =>
    simp only [ClientLoop.step]
    split
    · rename_i htimers
      exact h.timer (hret ret) htimers
    · exact h
  | send p =>
    have hwritten :
        Steady { c with pconn := { c.pconn with pwriteBuf := c.pconn.pwriteBuf ++ p } } :=
      h.of_same rfl rfl rfl
    exact (hwritten.updateEvent _).mono (fun _ h' => h'.1) fun _ => id
  | close => exact h.of_same rfl rfl rfl

theorem step_at_once (h : Steady c) {e : ClientEvent} (hzero : ¬ NotAtOnce c e) :
    ¬ Ensures (step proto hello c e) Sound NotClosed := by
  rw [NotAtOnce, not_forall] at hzero
  obtain ⟨ret, hret⟩ := hzero
  obtain ⟨⟨rfl, htimers, hmax, hne⟩, hnot⟩ := Classical.not_imp.mp hret
  obtain rfl := not_not.mp hnot
  simp only [ClientLoop.step, if_pos htimers]
  exact reConnect_zero h.linked hmax hne

/-- What `_connect` says by a value that is not negative. -/
def ConnectSound (ret : ConnectRet) : Prop :=
  0 ≤ (Connector.connect_ {} ret).1 → (Connector.connect_ {} ret).2.status ≠ .CLOSED

theorem connectSound_iff (ret : ConnectRet) : ConnectSound ret ↔ ret ≠ .zero := by
  cases ret with
  | zero => simp [ConnectSound, Connector.connect_]
  | inProgress => simp [ConnectSound, Connector.connect_]
  | error => simp [ConnectSound, Connector.connect_]

theorem startConnect_ok (ret : ConnectRet) :
    ∃ c, startConnect ret = .ok c ∧ Linked c ∧ (Sound c ↔ ret ≠ .zero) := by
  cases ret with
  | zero => exact ⟨_, rfl, fun _ => rfl, by simp [Sound]⟩
  | inProgress => exact ⟨_, rfl, fun _ => rfl, by simp [Sound]⟩
  | error =>
    refine ⟨_, rfl, ?_, by simp [Sound]⟩
    intro hstatus
    cases hstatus

/-- The results of `::connect` in a run from `c`, and that of the first attempt, are not zero. -/
def NeverAtOnce (proto : Bytes → Except Abort Bytes) (hello : Bytes) (ret : ConnectRet)
    (c : ClientLoop) (es : List ClientEvent) : Prop :=
  ret ≠ .zero ∧ Every (step proto hello) NotAtOnce c es

/-- **The assertions on the status.** For every run of a client: whenever the connector is
registered it is connecting or connected, and the assertions at the head of `handle_read` and
`handle_write` hold in every dispatch, if and only if no `::connect` of the run returns zero;
and so does each `_connect` that does not return an error change the status. -/
theorem status_iff (proto : Bytes → Except Abort Bytes) (hello : Bytes) (ret : ConnectRet)
    (es : List ClientEvent) :
    ∃ c, startConnect ret = .ok c ∧
      ((∀ pre, pre <+: es →
          Ensures (exec (step proto hello) c pre) Sound fun x => x ≠ .handleClosed) ↔
        NeverAtOnce proto hello ret c es) ∧
      (ConnectSound ret ∧
          Every (step proto hello) (fun c e => ∀ ret, Dials c e ret → ConnectSound ret) c es ↔
        NeverAtOnce proto hello ret c es) := by
  obtain ⟨c, hstart, hlinked, hsound⟩ := startConnect_ok ret
  refine ⟨c, hstart, ?_, ?_⟩
  · have hruns : ret ≠ .zero → ((∀ pre, pre <+: es →
        Ensures (exec (step proto hello) c pre) Sound NotClosed) ↔
          Every (step proto hello) NotAtOnce c es) := by
      intro hret
      exact prefixes_iff_every (G := fun _ => Sound) (I := fun _ => Steady)
        (fun _ _ _ h hnot => h.step hnot) (fun _ _ _ h hzero => step_at_once h hzero)
        (fun _ _ h => h.sound) [] ⟨hsound.mpr hret, hlinked⟩
    constructor
    · intro h
      have hret := hsound.mp (h [] List.nil_prefix)
      exact ⟨hret, (hruns hret).mp h⟩
    · rintro ⟨hret, hevery⟩
      exact (hruns hret).mpr hevery
  · simp only [connectSound_iff]
    exact Iff.rfl

/-- An immediate success: the connector is registered and `CLOSED`, and the next event of
its descriptor ends the client. -/
theorem status_at_once :
    ¬ ∀ (ret : ConnectRet) (c : ClientLoop) (es : List ClientEvent), startConnect ret = .ok c →
      ∀ pre, pre <+: es → Ensures (exec (step (fun praw => .ok praw) []) c pre) Sound
        fun x => x ≠ .handleClosed := by
  intro h
  have hrun := h .zero _ [.select { write := true } ⟨true, ⟨[], .eof⟩, 0, []⟩] rfl _
    List.prefix_rfl
  exact hrun rfl

end ClientLoop

end MixServer
