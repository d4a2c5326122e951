import MixServer.Server.Invariant

/-!
The life cycle of a connection under `TcpServer` and its subclasses.

Each method keeps the invariant; `Respects` is what a subclass owes for that,
and `Inv.step` is the step rule every subclass then has. `Leaves` says when a
handler takes its connection out of `streams`. `life_cycle` reads the flags, the
interests and `close_connect` off the invariant, over whole runs.
-/

namespace MixServer.Server

open Lib Net
open Function (update)

variable {ε : Type} {A : ε → Nat → Prop} {E : Crash → Prop} {busy : Option Nat}
variable {w : TcpServer ε} {a : Nat}

/-! ### Writing -/

/-- What waits may change while WRITE becomes an interest. -/
theorem Inv.enableWrite_eq (h : Inv A busy w) (ha : a ∈ w.streams) (f : Bytes → Bytes) :
    TcpStream.enableWrite a (w.modify a fun s => { s with pwriteBuf := f s.pwriteBuf }) =
      .ok ((w.setEvents a { (w.heap a).events with write := true }).modify a
        fun s => { s with pwriteBuf := f s.pwriteBuf }) := by
  simp [TcpStream.enableWrite, TcpServer.updateEvent, TcpServer.onLoop, EventLoop.updateEvent,
    TcpServer.modify, TcpServer.setEvents, (h.registered a ha).2]

/-- `TcpStream::send` makes WRITE an interest and appends the bytes. -/
theorem Inv.send_eq (h : Inv A busy w) (ha : a ∈ w.streams) (p : Bytes) :
    TcpStream.send a p w =
      .ok ((w.setEvents a { (w.heap a).events with write := true }).modify a
        fun s => { s with pwriteBuf := s.pwriteBuf ++ p }) :=
  h.enableWrite_eq ha (· ++ p)

theorem Inv.disableWrite_eq (h : Inv A busy w) (ha : a ∈ w.streams) :
    TcpStream.disableWrite a w =
      .ok (w.setEvents a { (w.heap a).events with write := false }) := by
  simp [TcpStream.disableWrite, TcpServer.updateEvent, TcpServer.onLoop,
    EventLoop.updateEvent, TcpServer.modify, TcpServer.setEvents, (h.registered a ha).2]

/-- The bytes that wait may change as long as some do where some did. -/
theorem Inv.enableWrite (h : Inv A none w) (ha : a ∈ w.streams) (hA : A w.ext a)
    {f : Bytes → Bytes} (hf : (w.heap a).pwriteBuf ≠ [] → f (w.heap a).pwriteBuf ≠ []) :
    Ensures (TcpStream.enableWrite a (w.modify a fun s => { s with pwriteBuf := f s.pwriteBuf }))
      (Inv A none) E := by
  rw [h.enableWrite_eq ha, ensures_ok]
  refine (h.setEvents ha fun _ => rfl).modify rfl rfl (fun _ => ⟨?_, ?_, fun _ => hA⟩)
    (fun hn => absurd ha hn) (fun b _ hb => hb)
  · simp
  · intro hb hc
    simpa using hf (h.closing a ha hb (by simpa using hc))

theorem Inv.send (h : Inv A none w) (ha : a ∈ w.streams) (hA : A w.ext a) (p : Bytes) :
    Ensures (TcpStream.send a p w) (Inv A none) E :=
  h.enableWrite ha hA (f := (· ++ p)) fun hne => by simp [hne]

/-! ### Closing -/

/-- What a subclass owes when it closes: its `close_connect` takes a closing
connection out of `streams`. -/
abbrev Closes (A : ε → Nat → Prop) (E : Crash → Prop) (closeConnect : Nat → Method ε) : Prop :=
  ∀ {w a}, Inv A (some a) w → a ∈ w.streams → (w.heap a).closing = true →
    A w.ext a → Ensures (closeConnect a w) (fun w' => Inv A none w' ∧ a ∉ w'.streams) E

theorem Inv.closeConnect (h : Inv A (some a) w) (ha : a ∈ w.streams)
    (hc : (w.heap a).closing = true) :
    Ensures (TcpServer.closeConnect a w) (fun w' => Inv A none w' ∧ a ∉ w'.streams) E := by
  rw [h.closeConnect_eq ha, ensures_ok]
  exact ⟨h.tearDown ha hc, Finset.notMem_erase a _⟩

/-- The first line of `TcpStream::close`. -/
theorem Inv.setClosing (h : Inv A (some a) w) (hA : A w.ext a) :
    Inv A (some a) (w.modify a fun s => { s with closing := true }) :=
  h.modify rfl rfl (fun ha => ⟨h.unsent a ha, fun hb => absurd rfl hb, fun _ => hA⟩)
    (fun hn => ⟨(h.gone a hn).1, fun _ => rfl⟩) (fun _ _ hb => hb)

/-- The write path is over: the busy connection waits for unsent bytes if it is
closing. -/
theorem Inv.settle (h : Inv A (some a) w)
    (hc : a ∈ w.streams → (w.heap a).closing = true → (w.heap a).pwriteBuf ≠ []) :
    Inv A none w where
  __ := h
  closing b hb _ := by
    by_cases hba : b = a
    · subst hba
      exact hc hb
    · exact h.closing b hb (by simpa using hba)

theorem Inv.close {closeConnect : Nat → Method ε} (hcc : Closes A E closeConnect)
    (h : Inv A (some a) w) (ha : a ∈ w.streams) (hA : A w.ext a) :
    Ensures (TcpStream.close closeConnect a w) (Inv A none) E := by
  have hclosing := h.setClosing hA
  unfold TcpStream.close
  dsimp only
  split
  · refine Ensures.bind (hcc hclosing ha (by simp) hA) ?_
    rintro w' ⟨h', hn⟩
    exact h'.modify rfl rfl (fun ha' => absurd ha' hn)
      (fun _ => ⟨(h'.gone a hn).1, id⟩) (fun _ _ hb => hb)
  · rename_i hne
    exact hclosing.settle fun _ _ => hne

/-- A subclass that adds nothing to `close_connect` may close any connection. -/
def always : ε → Nat → Prop := fun _ _ => True

theorem Inv.always (h : Inv A busy w) : Inv always busy w where
  __ := h
  owned _ _ _ := trivial

theorem closes_always : Closes (always (ε := ε)) E TcpServer.closeConnect :=
  fun h ha hc _ => h.closeConnect ha hc

/-! ### The script -/

section Script

variable {closeConnect : Nat → Method ε}

/-- A script never makes or drops a sender by using it. -/
theorem Inv.modifySender (h : Inv A busy w) (f : PySender → PySender) (b : Nat) :
    Inv A busy (PySender.modify b f w) := by
  have hsome : ∀ c, ((PySender.modify b f w).senders c).isSome = (w.senders c).isSome := by
    intro c
    by_cases hcb : c = b
    · subst hcb
      simp [PySender.modify]
    · simp [PySender.modify, hcb]
  exact
    { h with
      owned := fun c hc hx => h.owned c hc (by rwa [hsome c] at hx)
      known := fun c hx => h.known c (by rwa [hsome c] at hx) }

/-- A connection whose `closed` reads `False` is in `streams`: one that has left
them is closing. -/
theorem Inv.mem_of_open (h : Inv A busy w) {s : PySender} (hs : w.senders a = some s)
    (hclosed : ¬ s.getClosed a w = true) : a ∈ w.streams := by
  have hsome : (w.senders a).isSome = true := by simp [hs]
  simp only [PySender.getClosed, Bool.or_eq_true, not_or, Bool.not_eq_true] at hclosed
  by_contra hn
  have hclosing := (h.gone a hn).2 (h.known a hsome).1 (h.known a hsome).2
  rw [hclosed.1.2] at hclosing
  cases hclosing

theorem Inv.perform (hcc : Closes A E closeConnect) (h : Inv A none w) (act : Action) :
    Ensures (act.perform closeConnect w) (Inv A none) E := by
  cases act with
  | send b p =>
      simp only [Action.perform]
      split
      · rename_i hb
        exact h.send hb.2 (h.owned b hb.2 (.inr (.inr hb.1))) p
      · exact h
  | close b =>
      simp only [Action.perform]
      cases hs : w.senders b with
      | none => exact h
      | some s =>
          dsimp only
          split
          · exact h
          · rename_i hclosed
            have hb := h.mem_of_open hs hclosed
            have hsome : (w.senders b).isSome = true := by simp [hs]
            refine Ensures.bind
              ((h.idle _).close hcc hb (h.owned b hb (.inr (.inr hsome)))) ?_
            exact fun w' h' => h'.modifySender _ b
  | setReadingLine b value => exact h.modifySender _ b

theorem Inv.performAll (hcc : Closes A E closeConnect) (h : Inv A none w)
    (acts : List Action) : Ensures (exec (Action.perform closeConnect) w acts) (Inv A none) E :=
  exec_ensures (fun _ act hw => hw.perform hcc act) h acts

end Script

/-! ### Dispatch -/

/-- What a subclass owes: its `close_connect` closes, and what it does on a read
keeps the invariant. -/
structure Respects (A : ε → Nat → Prop) (E : Crash → Prop) (C : ServerClass ε) : Prop where
  closes : Closes A E C.closeConnect
  reads : ∀ {w a}, Inv A none w → a ∈ w.streams → Ensures (C.handleRead a w) (Inv A none) E

section Dispatch

variable {C : ServerClass ε}

theorem Inv.received (h : Inv A none w) (ha : a ∈ w.streams) (data : Bytes) :
    Inv A none (w.received a data) := by
  have hlog : Inv A none (w.log (.handleRead a)) := h.log fun b =>
    ⟨by simp, by rintro (heq | heq) <;> cases heq; exact ha⟩
  exact hlog.modifyRead fun s => s.preadBuf ++ data

theorem Inv.handleRead (hC : Respects A E C) (h : Inv A none w) (ha : a ∈ w.streams)
    (rets : Socket.RecvRets) (hA : rets.last.ends = true → A w.ext a) :
    Ensures (TcpStream.handleRead C rets a w) (Inv A none) E := by
  have hrecv := h.received ha rets.chunks.flatten
  rw [TcpStream.handleRead_eq]
  split
  · rename_i hlast
    exact (hrecv.idle _).close hC.closes ha (hA (by simp [hlast, Socket.RecvEnd.ends]))
  · rename_i e hlast
    split
    · rename_i hfatal
      refine Inv.close hC.closes ((hrecv.log (by simp)).idle _) ha (hA ?_)
      simp [hlast, Socket.RecvEnd.ends, hfatal]
    · exact hC.reads hrecv ha

theorem Inv.afterWrite (hC : Respects A E C) (h : Inv A (some a) w) (ha : a ∈ w.streams) :
    Ensures (TcpStream.afterWrite C a w) (Inv A none) E := by
  unfold TcpStream.afterWrite
  split
  · rename_i hnil
    rw [h.disableWrite_eq ha]
    have hset := h.setEvents ha (e := { (w.heap a).events with write := false })
      (fun hne => absurd hnil hne)
    change Ensures (ite _ _ _) _ _
    split
    · rename_i hclosing
      simp only [TcpServer.setEvents_closing] at hclosing
      exact hset.close hC.closes ha (h.owned a ha (.inl hclosing))
    · rename_i hclosing
      exact hset.settle fun _ hc => absurd hc hclosing
  · rename_i hne
    exact h.settle fun _ _ => hne

/-- Nothing is sent from an empty buffer, so what is left was unsent before. -/
theorem Inv.sent (h : Inv A none w) (ha : a ∈ w.streams) (rets : List Socket.SendRet) :
    Inv A (some a) (w.sent a rets) := by
  have hleft : (Socket.send (w.heap a).pwriteBuf rets).pbuf ≠ [] → (w.heap a).pwriteBuf ≠ [] := by
    intro hne hnil
    rw [hnil] at hne
    exact hne (Socket.send_nil_pbuf rets)
  have hlog : Inv A none (w.log (.handleWrite a)) := h.log fun b =>
    ⟨by simp, by rintro (heq | heq) <;> cases heq; exact ha⟩
  exact hlog.modify rfl rfl
    (fun ha => ⟨fun hne => h.unsent a ha (hleft hne), fun hb => absurd rfl hb, fun hb =>
      h.owned a ha (hb.imp id fun hne => .inl (hleft hne))⟩)
    (fun hn => absurd ha hn) (fun b _ _ => by simp)

theorem Inv.handleWrite (hC : Respects A E C) (h : Inv A none w) (ha : a ∈ w.streams)
    (rets : List Socket.SendRet) : Ensures (TcpStream.handleWrite C rets a w) (Inv A none) E := by
  have hsend := h.sent ha rets
  rw [TcpStream.handleWrite_eq]
  split
  · exact hsend.afterWrite hC ha
  · rename_i e herr
    split
    · refine Inv.close hC.closes (hsend.log (by simp)) ha (hsend.owned a ha (.inr (.inl ?_)))
      simpa using Socket.send_pbuf_ne_nil herr
    · exact hsend.afterWrite hC ha

theorem Inv.mem_of_event (h : Inv A busy w)
    (hr : (w.heap a).revents.read = true ∨ (w.heap a).revents.write = true) : a ∈ w.streams := by
  apply h.mem_of_revents
  intro he
  rw [he] at hr
  simp at hr

theorem Inv.handleEvent (hC : Respects A E C) (h : Inv A none w) (io : Io)
    (hA : (w.heap a).revents.read = true → io.recv.last.ends = true → A w.ext a) :
    Ensures (TcpStream.handleEvent C io a w) (Inv A none) E := by
  refine Ensures.bind (Q := Inv A none) ?_ ?_
  · split
    · rename_i hread
      exact h.handleRead hC (h.mem_of_event (.inl hread)) io.recv (hA hread)
    · exact h
  · intro w' h'
    split
    · rename_i hwrite
      exact h'.handleWrite hC (h'.mem_of_event (.inr hwrite)) io.send
    · exact h'

/-- `do_select` sets the events to handle of a connection in `streams`. -/
theorem Inv.dispatched (h : Inv A none w) (ha : a ∈ w.streams) (events : Events) :
    Inv A none (w.modify a fun s => { s with revents := events }) :=
  h.modify rfl rfl
    (fun ha => ⟨h.unsent a ha, h.closing a ha, fun hb => h.owned a ha (by tauto)⟩)
    (fun hn => absurd ha hn) (fun _ _ hb => hb)

theorem Inv.doSelect (hC : Respects A E C) (h : Inv A none w) {fd : Nat}
    (hfd : w.ploop.handles fd = some (.stream a)) (events : Events) (io : Io)
    (hA : events.read = true → io.recv.last.ends = true → A w.ext a) :
    Ensures (doSelect C fd events io w) (Inv A none) E := by
  simp only [Server.doSelect, hfd]
  exact (h.dispatched (h.handled fd a hfd).1 events).handleEvent hC io (by simpa using hA)

end Dispatch

/-! ### Leaving `streams` -/

/-- What the end of a connection's handler does when the subclass adds nothing to
`close_connect`: `a` leaves `streams` exactly under `P`. -/
structure Leaves (a : Nat) (P : Prop) (w w' : TcpServer ε) : Prop where
  streams : ∀ b, b ∈ w'.streams ↔ b ∈ w.streams ∧ (b = a → ¬ P)
  ext : w'.ext = w.ext
  closed : ∀ b ∈ w'.streams, (w'.heap b).closed = (w.heap b).closed

section Leaves

variable {C : ServerClass ε} {w' w'' : TcpServer ε} {P Q : Prop}

/-- The state may be taken some steps earlier. -/
theorem Leaves.of_same (h : Leaves a P w' w'') (hstreams : w'.streams = w.streams)
    (hext : w'.ext = w.ext) (hclosed : ∀ b, (w'.heap b).closed = (w.heap b).closed)
    (hPQ : P ↔ Q) : Leaves a Q w w'' where
  streams b := by
    rw [← hstreams, ← hPQ]
    exact h.streams b
  ext := h.ext.trans hext
  closed b hb := (h.closed b hb).trans (hclosed b)

/-- Nobody leaves. -/
theorem Leaves.of_stays (hP : ¬ P) (hstreams : w'.streams = w.streams) (hext : w'.ext = w.ext)
    (hclosed : ∀ b, (w'.heap b).closed = (w.heap b).closed) : Leaves a P w w' where
  streams b := by
    rw [hstreams]
    exact (and_iff_left fun _ => hP).symm
  ext := hext
  closed b _ := hclosed b

theorem modify_closed {f : TcpStream → TcpStream} (hf : ∀ s, (f s).closed = s.closed) (b : Nat) :
    ((w.modify a f).heap b).closed = (w.heap b).closed := by
  rw [TcpServer.modify_heap]
  split
  · rename_i hba
    rw [hf, hba]
  · rfl

theorem close_leaves (h : Inv always (some a) w) (ha : a ∈ w.streams) :
    Ensures (TcpStream.close TcpServer.closeConnect a w)
      (Leaves a ((w.heap a).pwriteBuf = []) w) E := by
  have hclosing := h.setClosing (A := always) trivial
  have hpbuf : ((w.modify a fun s => { s with closing := true }).heap a).pwriteBuf =
      (w.heap a).pwriteBuf := by rw [TcpServer.modify_heap_self]
  unfold TcpStream.close
  dsimp only
  rw [hpbuf]
  split
  · rename_i hnil
    rw [hclosing.closeConnect_eq ha, ok_bind]
    constructor
    · intro b
      simp [hnil, and_comm]
    · rfl
    · intro b hb
      have hba : b ≠ a := (Finset.mem_erase.mp hb).1
      simp [TcpServer.modify_heap, TcpServer.tearDown_heap, hba]
  · rename_i hne
    exact .of_stays hne rfl rfl (modify_closed (by intro s; rfl))

theorem afterWrite_leaves (hC : C.closeConnect = TcpServer.closeConnect)
    (h : Inv always (some a) w) (ha : a ∈ w.streams) :
    Ensures (TcpStream.afterWrite C a w)
      (Leaves a ((w.heap a).closing = true ∧ (w.heap a).pwriteBuf = []) w) E := by
  unfold TcpStream.afterWrite
  split
  · rename_i hnil
    have hset := h.setEvents ha (e := { (w.heap a).events with write := false })
      fun hne => absurd hnil hne
    have hclosed : ∀ b, ((w.setEvents a { (w.heap a).events with write := false }).heap b).closed =
        (w.heap b).closed :=
      modify_closed (f := fun s => { s with events := _ }) fun _ => rfl
    rw [h.disableWrite_eq ha, ok_bind, hC]
    split
    · rename_i hc
      rw [TcpServer.setEvents_closing] at hc
      refine (close_leaves hset ha).mono ?_ fun _ => id
      intro w' hw'
      exact hw'.of_same rfl rfl hclosed (by simp [hc])
    · rename_i hc
      rw [TcpServer.setEvents_closing] at hc
      exact .of_stays (fun hP => hc hP.1) rfl rfl hclosed
  · rename_i hne
    exact .of_stays (fun hP => hne hP.2) rfl rfl fun _ => rfl

/-- A connection leaves from the write handler when it is closing and the kernel
takes all that is unsent. -/
theorem handleWrite_leaves (hC : C.closeConnect = TcpServer.closeConnect)
    (h : Inv always none w) (ha : a ∈ w.streams) (rets : List Socket.SendRet) :
    Ensures (TcpStream.handleWrite C rets a w)
      (Leaves a ((w.heap a).closing = true ∧
        Socket.drains rets (w.heap a).pwriteBuf.length = true) w) E := by
  have hsent := h.sent ha rets
  have hclosed : ∀ b, ((w.sent a rets).heap b).closed = (w.heap b).closed :=
    modify_closed (by intro s; rfl)
  have hafter : Ensures (TcpStream.afterWrite C a (w.sent a rets))
      (Leaves a ((w.heap a).closing = true ∧
        Socket.drains rets (w.heap a).pwriteBuf.length = true) w) E := by
    refine (afterWrite_leaves hC hsent ha).mono ?_ fun _ => id
    intro w' hw'
    exact hw'.of_same rfl rfl hclosed (by rw [TcpServer.sent_heap_self, Socket.send_pbuf_eq_nil])
  rw [TcpStream.handleWrite_eq]
  split
  · exact hafter
  · rename_i e herr
    split
    · have hleft := Socket.send_pbuf_ne_nil herr
      rw [hC]
      refine (close_leaves (hsent.log (o := .sendError a e) (by simp)) ha).mono ?_ fun _ => id
      intro w' hw'
      exact hw'.of_same rfl rfl hclosed (by simp [← Socket.send_pbuf_eq_nil, hleft])
    · exact hafter

/-- A connection leaves from the read handler when `recv` is over and nothing is
unsent. -/
theorem handleRead_leaves (hC : C.closeConnect = TcpServer.closeConnect)
    (h : Inv always none w) (ha : a ∈ w.streams) {rets : Socket.RecvRets}
    (hends : rets.last.ends = true) :
    Ensures (TcpStream.handleRead C rets a w) (Leaves a ((w.heap a).pwriteBuf = []) w) E := by
  have hrecv := (h.received ha rets.chunks.flatten).idle (some a)
  have hclosed : ∀ b, ((w.received a rets.chunks.flatten).heap b).closed = (w.heap b).closed :=
    modify_closed (by intro s; rfl)
  have hpbuf : ((w.received a rets.chunks.flatten).heap a).pwriteBuf = (w.heap a).pwriteBuf := by
    rw [TcpServer.received_heap_self]
  rw [TcpStream.handleRead_eq, hC]
  split
  · refine (close_leaves hrecv ha).mono ?_ fun _ => id
    intro w' hw'
    exact hw'.of_same rfl rfl hclosed (by rw [hpbuf])
  · rename_i e hlast
    have hfatal : e.fatal = true := by rwa [hlast] at hends
    rw [if_pos hfatal]
    refine (close_leaves (hrecv.log (o := .recvError a e) (by simp)) ha).mono ?_ fun _ => id
    intro w' hw'
    exact hw'.of_same rfl rfl hclosed (by rw [TcpServer.log_heap, hpbuf])

/-- Otherwise the server's `handle_read` is called. -/
theorem handleRead_of_not_ends {rets : Socket.RecvRets} (hends : ¬ rets.last.ends = true) :
    TcpStream.handleRead C rets a w = C.handleRead a (w.received a rets.chunks.flatten) := by
  rw [TcpStream.handleRead_eq]
  split
  · rename_i hlast
    rw [hlast] at hends
    exact absurd rfl hends
  · rename_i e hlast
    have hfatal : ¬ e.fatal = true := by rwa [hlast] at hends
    rw [if_neg hfatal]

end Leaves

/-! ### Accepting -/

/-- A new connection is in `streams` under an id that was never used. -/
theorem Inv.newConnect (h : Inv A none w)
    (hE : ∀ c ∈ [Abort.getpeername, .addHandle], E ⟨c, w.trace⟩) (fd : Nat) (peer : Bool) :
    Ensures (TcpServer.newConnect fd peer w)
      (fun w' => Inv A none w' ∧ w'.maxConnectId = w.maxConnectId + 1 ∧
        w'.maxConnectId ∈ w'.streams ∧ w'.ext = w.ext) E := by
  rw [TcpServer.newConnect_eq]
  split
  · split
    · exact hE _ (by simp)
    · rename_i hnew
      exact ⟨h.connected (by simpa using hnew), rfl, by simp, rfl⟩
  · exact hE _ (by simp)

/-- A sender is made for a connection the subclass is ready to close. -/
theorem Inv.addSender (h : Inv A none w) (hpos : 0 < a) (hle : a ≤ w.maxConnectId)
    (hA : A w.ext a) (s : PySender) :
    Inv A none { w with senders := update w.senders a (some s) } where
  __ := h
  owned b hb hx := by
    by_cases hba : b = a
    · subst hba
      exact hA
    · exact h.owned b hb (by simpa [hba] using hx)
  known b hb := by
    by_cases hba : b = a
    · subst hba
      exact ⟨hpos, hle⟩
    · exact h.known b (by simpa [hba] using hb)

/-! ### Runs -/

/-- The assertions that fail only because of what the kernel answers: a
descriptor that is in use already, no connection to accept, no handle for an
active descriptor. -/
def Abort.ofKernel : Abort → Bool
  | .addHandle | .accept | .getpeername | .doSelect => true
  | _ => false

/-- If the event ends the stream of a connection, the subclass is ready to close
that connection. -/
def Event.Attended (A : ε → Nat → Prop) (w : TcpServer ε) : Event → Prop
  | .select fd events io =>
      ∀ a, w.ploop.handles fd = some (.stream a) → events.read = true →
        io.recv.last.ends = true → A w.ext a
  | .timer _ => True

/-- The step rule of every subclass. -/
theorem Inv.step {C : ServerClass ε} (hC : Respects A E C)
    (hE : ∀ w, Inv A none w → ∀ c, Abort.ofKernel c = true → E ⟨c, w.trace⟩)
    (hnew : ∀ w fd peer, Inv A none w → Ensures (C.newConnect fd peer w) (Inv A none) E)
    (h : Inv A none w) {e : Event} (hA : e.Attended A w) :
    Ensures (Server.step C w e) (Inv A none) E := by
  cases e with
  | timer actions => exact h.performAll hC.closes actions
  | select fd events io =>
      simp only [Server.step, Server.doSelect]
      cases hfd : w.ploop.handles fd with
      | none => exact hE w h _ rfl
      | some p =>
          cases p with
          | stream a => simpa [Server.doSelect, hfd] using h.doSelect hC hfd events io (hA a hfd)
          | acceptor =>
              dsimp only
              split
              · unfold Acceptor.handleRead
                split
                · exact hE w h _ rfl
                · exact hnew w _ _ h
              · exact h

/-- A process that ended at such an assertion closed its connections tidily
until then. -/
def Crash.Excused (x : Crash) : Prop := Abort.ofKernel x.cause = true ∧ Tidy x.trace

theorem scripted_respects (script : Script) : Respects always E (scripted script) where
  closes := closes_always
  reads h _ := h.performAll closes_always _

theorem scripted_step {w : TcpServer Unit} (script : Script) (h : Inv always none w) (e : Event) :
    Ensures (step (scripted script) w e) (Inv always none) Crash.Excused := by
  refine h.step (scripted_respects script) (fun w h c hc => ⟨hc, h.tidy⟩) ?_ ?_
  · intro w fd peer h
    refine Ensures.bind (h.newConnect (fun c hc => ⟨?_, h.tidy⟩) fd peer) ?_
    · rintro w' ⟨h', hid, -, -⟩
      exact (h'.addSender (by omega) le_rfl trivial {}).performAll closes_always _
    · rcases List.mem_pair.mp hc with rfl | rfl <;> rfl
  · cases e with
    | timer actions => trivial
    | select fd events io => exact fun _ _ _ _ => trivial

/-- **Life cycle.** In every run of a server, whatever the kernel answers and
the script does: unsent bytes keep WRITE among the interests, a connection that
is closing has unsent bytes, `close_connect` runs at most once for a connection
and finds it in `streams`, and no handler of it is dispatched afterwards. -/
theorem life_cycle (script : Script) (fd : Nat) (es : List Event) :
    Ensures (exec (step (scripted script)) (TcpServer.bind fd ()) es)
      (fun w =>
        (∀ a ∈ w.streams, (w.heap a).pwriteBuf ≠ [] → (w.heap a).events.write = true) ∧
        (∀ a ∈ w.streams, (w.heap a).closing = true → (w.heap a).pwriteBuf ≠ []) ∧
        Tidy w.trace)
      (fun x => x.cause ≠ .closeConnectStreams ∧ Tidy x.trace) := by
  refine (exec_ensures (fun _ e h => scripted_step script h e)
    (Inv.bind fd () : Inv always none _) es).mono ?_ ?_
  · intro w h
    exact ⟨h.unsent, fun a ha => h.closing a ha (by simp), h.tidy⟩
  · rintro x ⟨hcause, htidy⟩
    constructor
    · intro heq
      rw [heq] at hcause
      cases hcause
    · exact htidy

end MixServer.Server
