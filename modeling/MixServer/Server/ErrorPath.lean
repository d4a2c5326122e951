import MixServer.Server.LifeCycle
import MixServer.Server.Trace

/-!
What a fatal socket error does to its connection.

Both error branches end in `TcpStream::close`, which waits for unsent bytes. A
failed `recv` therefore ends the connection at once only if nothing is unsent; a
failed `send` never does, since the bytes it could not send are unsent
(`fatal_error_tears_down_iff`).
-/

namespace MixServer.Server

open Lib Net
open Function (update)

variable {a : Nat} (script : Script)

/-- A `recv` or `send` of the connection failed with a fatal `errno`. -/
def Obs.IsFailure (a : Nat) (o : Obs) : Prop :=
  ∃ e : Errno, e.fatal = true ∧ (o = .recvError a e ∨ o = .sendError a e)

/-- The connection is neither in `streams` nor known to the event loop. -/
def TornDown (a : Nat) (w : TcpServer Unit) : Prop :=
  a ∉ w.streams ∧ ∀ fd, w.ploop.handles fd ≠ some (.stream a)

/-- The dispatch reads, its `recv` fails for good, and nothing is unsent then or
after the write that the same dispatch makes. -/
def ReadFailsDrained (w : TcpServer Unit) (a : Nat) (events : Events) (io : Io) : Prop :=
  (events.read = true ∧ ∃ e : Errno, io.recv.last = .error e ∧ e.fatal = true) ∧
    ((w.heap a).pwriteBuf = [] ∨
      events.write = true ∧ Socket.drains io.send (w.heap a).pwriteBuf.length = true)

variable {w : TcpServer Unit}

theorem tornDown_iff (h : Inv always none w) : TornDown a w ↔ a ∉ w.streams := by
  constructor
  · intro ht
    exact ht.1
  · intro hn
    exact ⟨hn, fun fd hfd => hn (h.handled fd a hfd).1⟩

theorem not_isFailure_of_isClose {o : Obs} (ho : o.IsClose) : ¬ o.IsFailure a := by
  rintro ⟨e, -, heq⟩
  obtain ⟨b, rfl⟩ := ho
  simp at heq

/-! ### One close -/

/-- With unsent bytes `TcpStream::close` only marks the connection. -/
theorem close_of_unsent (closeConnect : Nat → Method Unit) (h : (w.heap a).pwriteBuf ≠ []) :
    TcpStream.close closeConnect a w = .ok (w.modify a fun s => { s with closing := true }) := by
  simp [TcpStream.close, h]
  rfl

/-! ### The write handler -/

theorem appends_afterWrite :
    Appends (fun o => ¬ o.IsFailure a) (TcpStream.afterWrite (scripted script) a) := by
  intro w
  unfold TcpStream.afterWrite
  split
  · refine Adds.bind (appends_disableWrite a w) ?_
    intro w'
    split
    · exact appends_close (fun b => (appends_closeConnect b).mono fun _ =>
        not_isFailure_of_isClose) a w'
    · exact .refl _ _
  · exact .refl _ _

/-- A failed `send` leaves the connection where it is. -/
theorem handleWrite_failure (ha : a ∈ w.streams) (rets : List Socket.SendRet) :
    Ensures (TcpStream.handleWrite (scripted script) rets a w)
      (fun w' => a ∈ w'.streams ∨ Extends (fun o => ¬ o.IsFailure a) w.trace w'.trace)
      (fun _ => True) := by
  have hlog : Extends (fun o => ¬ o.IsFailure a) w.trace (w.log (.handleWrite a)).trace :=
    .single (by rintro ⟨e, -, heq⟩; simp at heq) w.trace
  have hafter : ∀ w' : TcpServer Unit, w'.trace = (w.log (.handleWrite a)).trace →
      Ensures (TcpStream.afterWrite (scripted script) a w')
        (fun w' => a ∈ w'.streams ∨ Extends (fun o => ¬ o.IsFailure a) w.trace w'.trace)
        (fun _ => True) := by
    intro w' hw'
    have hadds := hlog.adds ((appends_afterWrite script).at hw')
    exact hadds.mono (fun _ => .inr) (fun _ _ => trivial)
  rw [TcpStream.handleWrite_eq]
  split
  · exact hafter _ rfl
  · rename_i e herr
    split
    · -- the bytes that were not sent make `close` wait
      rw [close_of_unsent _ (by simpa using Socket.send_pbuf_ne_nil herr)]
      exact .inl ha
    · exact hafter _ rfl

/-- A closing connection leaves exactly when the kernel takes all it has left. -/
theorem handleWrite_closing (h : Inv always none w) (ha : a ∈ w.streams)
    (hc : (w.heap a).closing = true) (rets : List Socket.SendRet) :
    Ensures (TcpStream.handleWrite (scripted script) rets a w)
      (fun w' => a ∉ w'.streams ↔ Socket.drains rets (w.heap a).pwriteBuf.length = true)
      (fun _ => False) := by
  refine (handleWrite_leaves rfl h ha rets).mono ?_ fun _ => id
  intro w' hleaves
  rw [hleaves.streams a]
  simp [ha, hc]

/-! ### One dispatch -/

/-- A read that does not fail for good logs no failure. -/
theorem appends_handleRead {rets : Socket.RecvRets}
    (h : ∀ e : Errno, rets.last = .error e → e.fatal = false) :
    Appends (fun o => ¬ o.IsFailure a) (TcpStream.handleRead (scripted script) rets a) := by
  intro w
  have hlog : Extends (fun o => ¬ o.IsFailure a) w.trace (w.log (.handleRead a)).trace :=
    .single (by rintro ⟨e, -, heq⟩; simp at heq) w.trace
  have hclose : ∀ b, Appends (fun o => ¬ o.IsFailure a) (TcpServer.closeConnect (ε := Unit) b) :=
    fun b => (appends_closeConnect b).mono fun _ => not_isFailure_of_isClose
  refine hlog.adds ?_
  rw [TcpStream.handleRead_eq]
  split
  · exact (appends_close hclose a).at rfl
  · rename_i e hlast
    rw [h e hlast]
    exact (appends_call hclose script).at rfl

/-- The failing read of a dispatch, and the write that may follow it. -/
theorem handleEvent_readFails (h : Inv always none w) (ha : a ∈ w.streams) {io : Io}
    (hread : (w.heap a).revents.read = true) {e : Errno} (hlast : io.recv.last = .error e)
    (hfatal : e.fatal = true) :
    Ensures (TcpStream.handleEvent (scripted script) io a w)
      (fun w' => a ∉ w'.streams ↔ (w.heap a).pwriteBuf = [] ∨
        (w.heap a).revents.write = true ∧
          Socket.drains io.send (w.heap a).pwriteBuf.length = true) (fun _ => False) := by
  have hinv := h.handleRead (E := fun _ => False) (scripted_respects script) ha io.recv
    fun _ => trivial
  simp only [TcpStream.handleEvent, hread, if_true]
  by_cases hnil : (w.heap a).pwriteBuf = []
  · -- nothing is unsent: `close` tears down, and no bit is handled any more
    have hends : io.recv.last.ends = true := by rwa [hlast]
    have hclose : Ensures (TcpStream.handleRead (scripted script) io.recv a w)
        (fun w' => a ∉ w'.streams) (fun _ => False) :=
      (handleRead_leaves rfl h ha hends).mono
        (fun _ hleaves hmem => ((hleaves.streams a).mp hmem).2 rfl hnil) fun _ => id
    refine (hinv.and hclose).bind ?_ |>.mono (fun _ => id) (fun _ => And.left)
    rintro w' ⟨h', hn⟩
    rw [(h'.gone a hn).1]
    exact iff_of_true hn (.inl hnil)
  · -- `close` waits: only the write of the same dispatch can end it
    have hunsent : (((w.received a io.recv.chunks.flatten).log (.recvError a e)).heap a).pwriteBuf
        ≠ [] := by simpa using hnil
    rw [TcpStream.handleRead_eq, hlast] at hinv ⊢
    simp only [hfatal, if_true] at hinv ⊢
    rw [close_of_unsent _ hunsent] at hinv ⊢
    rw [ensures_ok] at hinv
    rw [ok_bind]
    simp only [TcpServer.modify_heap_self, TcpServer.log_heap, TcpServer.received_heap_self,
      hnil, false_or]
    split
    · rename_i hwrite
      simpa [hwrite] using handleWrite_closing script hinv ha (by simp) io.send
    · rename_i hwrite
      exact iff_of_false (fun hn => hn ha) fun hw => hwrite hw.1

/-- Any other dispatch tears the connection down only if it logs no failure. -/
theorem handleEvent_failure (h : Inv always none w) (io : Io)
    (hread : ¬ ((w.heap a).revents.read = true ∧
      ∃ e : Errno, io.recv.last = .error e ∧ e.fatal = true)) :
    Ensures (TcpStream.handleEvent (scripted script) io a w)
      (fun w' => a ∈ w'.streams ∨ Extends (fun o => ¬ o.IsFailure a) w.trace w'.trace)
      (fun _ => True) := by
  refine Ensures.bind (E := fun _ => True)
    (Q := fun w' => Inv always none w' ∧ Extends (fun o => ¬ o.IsFailure a) w.trace w'.trace)
    ?_ ?_
  · split
    · rename_i hr
      have ha := h.mem_of_revents (a := a) fun he => by simp [he] at hr
      have hinv := h.handleRead (E := fun _ => False) (scripted_respects script) ha io.recv
        fun _ => trivial
      have hfine : ∀ e : Errno, io.recv.last = .error e → e.fatal = false := by
        intro e hlast
        by_contra hfatal
        exact hread ⟨hr, e, hlast, by simpa using hfatal⟩
      exact (hinv.and (appends_handleRead script hfine w)).mono (fun _ => id) (fun _ _ => trivial)
    · exact ⟨h, .refl _ _⟩
  · rintro w' ⟨h', hext⟩
    split
    · rename_i hw
      have ha := h'.mem_of_revents (a := a) fun he => by simp [he] at hw
      exact (handleWrite_failure script ha io.send).mono (fun _ => Or.imp_right hext.trans)
        (fun _ => id)
    · exact .inr hext

/-- **A fatal error ends the connection exactly when nothing is unsent.** In
every reachable state and every dispatch in which `recv` or `send` fails for
good, the connection is torn down iff it is `recv` that failed and the write
buffer was empty, or is emptied by the write of the same dispatch. -/
theorem fatal_error_tears_down_iff (script : Script) (lfd : Nat) (es : List Event) :
    Ensures (exec (step (scripted script)) (TcpServer.bind lfd ()) es)
      (fun w => ∀ fd a events io, w.ploop.handles fd = some (.stream a) →
        Ensures (doSelect (scripted script) fd events io w)
          (fun w' => (∃ o ∈ w'.trace.drop w.trace.length, o.IsFailure a) →
            (TornDown a w' ↔ ReadFailsDrained w a events io))
          (fun _ => False))
      (fun _ => True) := by
  refine (exec_ensures (fun _ e h => scripted_step script h e)
    (Inv.bind lfd () : Inv always none _) es).mono ?_ (fun _ _ => trivial)
  intro w h fd a events io hfd
  have ha := (h.handled fd a hfd).1
  have hmask := h.dispatched ha events
  have hinv := h.doSelect (E := fun _ => False) (scripted_respects script) hfd events io
    fun _ _ => trivial
  have hstep : doSelect (scripted script) fd events io w = TcpStream.handleEvent (scripted script)
      io a (w.modify a fun s => { s with revents := events }) := by
    simp [doSelect, hfd]
  by_cases hread : events.read = true ∧ ∃ e : Errno, io.recv.last = .error e ∧ e.fatal = true
  · obtain ⟨hr, e, hlast, hfatal⟩ := id hread
    have hout := handleEvent_readFails script hmask ha (by simpa using hr) hlast hfatal
    rw [← hstep] at hout
    refine (hinv.and hout).mono ?_ (fun _ => And.left)
    rintro w' ⟨h', hiff⟩ -
    rw [tornDown_iff h', hiff]
    simp [ReadFailsDrained, hread]
  · have hout := handleEvent_failure script (a := a) hmask io
      (by simpa using hread)
    rw [← hstep] at hout
    refine (hinv.and hout).mono ?_ (fun _ => And.left)
    rintro w' ⟨h', hmem | hext⟩ ⟨o, ho, hfail⟩
    · exact iff_of_false (fun ht => ht.1 hmem) fun hd => hread hd.1
    · exact absurd hfail (hext.drop o ho)

/-- A peer that resets while bytes for it are unsent: the server keeps the
connection registered. -/
theorem reset_while_unsent_stays :
    ∃ w w' : TcpServer Unit,
      exec (step (scripted fun _ => [])) (TcpServer.bind 3 ())
        [.select 3 { read := true } ⟨⟨[], .eof⟩, [], .conn 4 true⟩, .timer [.send 1 [65]]] = .ok w ∧
      w.ploop.handles 4 = some (.stream 1) ∧
      doSelect (scripted fun _ => []) 4 { read := true }
        ⟨⟨[], .error (.other 104)⟩, [], .error⟩ w = .ok w' ∧
      (∃ o ∈ w'.trace.drop w.trace.length, o.IsFailure 1) ∧ ¬ TornDown 1 w' := by
  refine ⟨_, _, rfl, rfl, rfl, ⟨.recvError 1 (.other 104), ?_, .other 104, rfl, .inl rfl⟩, ?_⟩
  · decide
  · rintro ⟨hn, -⟩
    exact hn (by decide)

end MixServer.Server
