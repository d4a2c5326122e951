import MixServer.Server.SideBySide

/-!
A connection of the server and its session.

`Alike` relates the two as long as the handler has not closed, and `Closed` says what is
left of a connection when it has. `Alike.readable` and `Alike.handleWrite` are the events of
the connection: READ events do to it what they do to the session, and a WRITE event moves
what was sent towards the wire. `Closed.handleWrite` is the end: the connection is there
until all of it is on the wire.
-/

namespace MixServer

open Lib Net Server Script

namespace Server.HttpServer

variable {w w' : TcpServer HttpHandles} {a b : Nat} {lib : Library}

/-! ### A connection and its session -/

/-- Connection `a` is the session `s`, and the kernel has taken `wire` of what it sent. -/
structure Alike (lib : Library) (a : Nat) (s : Session) (wire : Bytes)
    (w : TcpServer HttpHandles) : Prop where
  streams : a ∈ w.streams
  handles : a ∈ w.ext.handles
  pyHandles : a ∈ w.ext.pyHandles
  handler : handlerOf lib a w.trace = s.handler
  sender : w.senders a = some { readingLine := s.readingLine }
  preadBuf : (w.heap a).preadBuf = s.preadBuf
  account : wire ++ (w.heap a).pwriteBuf = s.sent
  closing : (w.heap a).closing = false
  closed : (w.heap a).closed = false

/-- The handler of connection `a` has closed it, and its session was `s` then: the
connection stays until the kernel has taken all that was sent. -/
structure Closed (a : Nat) (s : Session) (wire : Bytes) (w : TcpServer HttpHandles) : Prop where
  preadBuf : (w.heap a).preadBuf = s.preadBuf
  account : wire ++ (w.heap a).pwriteBuf = s.sent
  closing : (w.heap a).closing = true
  streams : a ∈ w.streams ↔ (w.heap a).pwriteBuf ≠ []

/-- Connection `a` has done what its session has, which came to `r`. -/
def Tracks (lib : Library) (a : Nat) (wire : Bytes) (r : Except Session Session)
    (w : TcpServer HttpHandles) : Prop :=
  Ensures r (fun s => Alike lib a s wire w) fun s => Closed a s wire w

variable {s s' : Session} {wire : Bytes}

theorem Alike.modifyRead (h : Alike lib a s wire w) (b : Bytes) :
    Alike lib a { s with preadBuf := b } wire (w.modify a fun t => { t with preadBuf := b }) where
  streams := h.streams
  handles := h.handles
  pyHandles := h.pyHandles
  handler := h.handler
  sender := h.sender
  preadBuf := by rw [TcpServer.modify_heap_self]
  account := by rw [TcpServer.modify_heap_self, h.account]
  closing := by rw [TcpServer.modify_heap_self, h.closing]
  closed := by rw [TcpServer.modify_heap_self, h.closed]

/-- One effect of a handler. -/
theorem Alike.perform (h : Alike lib a s wire w) (hinv : Inv Handled none w) {e : Effect}
    (he : s.perform e = .ok s') :
    ∃ w', (e.on a).perform closeConnect w = .ok w' ∧ Alike lib a s' wire w' ∧
      Inv Handled none w' ∧ w'.trace = w.trace := by
  have hnext := hinv.perform (E := fun _ => False) closes_http (e.on a)
  cases e with
  | send p =>
    cases he
    obtain ⟨w', hsend, hsent⟩ :=
      performSend_spec hinv h.streams h.handles (by rw [h.sender]; rfl) p
    refine ⟨w', hsend, ⟨?_, ?_, ?_, ?_, ?_, ?_, ?_, ?_, ?_⟩, hsent.inv, hsent.trace⟩
    · rw [hsent.streams]
      exact h.streams
    · rw [hsent.ext]
      exact h.handles
    · rw [hsent.ext]
      exact h.pyHandles
    · rw [hsent.trace, h.handler]
    · rw [hsent.senders, h.sender]
    · rw [hsent.preadBuf, h.preadBuf]
    · rw [hsent.pwriteBuf, ← List.append_assoc, h.account]
    · rw [hsent.closing, h.closing]
    · rw [hsent.closed, h.closed]
  | close => cases he
  | setReadingLine value =>
    cases he
    refine ⟨_, rfl, { h with sender := ?_ }, hnext, rfl⟩
    simp [PySender.modify, h.sender]

/-- A close tears a connection down that has nothing unsent. -/
theorem close_drained (h : Inv Handled (some a) w) (ha : a ∈ w.streams) (hA : a ∈ w.ext.handles)
    (hnil : (w.heap a).pwriteBuf = []) :
    TcpStream.close closeConnect a w =
      .ok ((tearDown (w.modify a fun s => { s with closing := true }) a).modify a
        fun s => { s with closed := true }) := by
  have hclosing := h.setClosing (a := a) hA
  simp only [TcpStream.close, TcpServer.modify_heap_self, hnil, if_true]
  rw [closeConnect_eq hclosing ha (by simp) hA]
  rfl

/-- The close of a handler. -/
theorem Alike.close (h : Alike lib a s wire w) (hinv : Inv Handled none w) :
    ∃ w', (Effect.close.on a).perform closeConnect w = .ok w' ∧ Closed a s wire w' ∧
      Inv Handled none w' := by
  have hnext := hinv.perform (E := fun _ => False) closes_http (.close a)
  by_cases hnil : (w.heap a).pwriteBuf = []
  · have heq : (Action.close a).perform closeConnect w =
        .ok (PySender.modify a (fun s => { s with closed := true })
          ((tearDown (w.modify a fun s => { s with closing := true }) a).modify a
            fun s => { s with closed := true })) := by
      simp only [Action.perform, h.sender, PySender.getClosed, h.closing, h.closed, Bool.or_self,
        Bool.false_eq_true, if_false, PySender.close]
      rw [close_drained (hinv.idle (some a)) h.streams h.handles hnil]
      rfl
    rw [heq] at hnext
    refine ⟨_, heq, ⟨?_, ?_, ?_, ?_⟩, hnext⟩
    · simp [PySender.modify, tearDown, TcpServer.tearDown_heap, h.preadBuf]
    · simp [PySender.modify, tearDown, TcpServer.tearDown_heap, h.account]
    · simp [PySender.modify, tearDown, TcpServer.tearDown_heap]
    · simp [PySender.modify, tearDown, TcpServer.tearDown_heap, hnil]
  · have heq : (Action.close a).perform closeConnect w =
        .ok (PySender.modify a (fun s => { s with closed := true })
          (w.modify a fun s => { s with closing := true })) := by
      simp only [Action.perform, h.sender, PySender.getClosed, h.closing, h.closed, Bool.or_self,
        Bool.false_eq_true, if_false, PySender.close, TcpStream.close,
        TcpServer.modify_heap_self, hnil]
      rfl
    rw [heq] at hnext
    refine ⟨_, heq, ⟨?_, ?_, ?_, ?_⟩, hnext⟩
    · simp [PySender.modify, h.preadBuf]
    · simp [PySender.modify, h.account]
    · simp [PySender.modify]
    · simp [PySender.modify, hnil, h.streams]

/-- The effects of a handler, which closes last. -/
theorem Alike.effects (h : Alike lib a s wire w) (hinv : Inv Handled none w)
    {effects : List Effect} (hlast : ClosesLast effects) :
    ∃ w', exec (Action.perform closeConnect) w (effects.map (Effect.on a)) = .ok w' ∧
      Tracks lib a wire (exec Session.perform s effects) w' ∧ Inv Handled none w' := by
  induction effects generalizing s w with
  | nil => exact ⟨w, rfl, h, hinv⟩
  | cons e effects ih =>
    cases he : s.perform e with
    | ok s₁ =>
      obtain ⟨w₁, hperform, h₁, hinv₁, -⟩ := h.perform hinv he
      obtain ⟨w', hexec, htracks, hinv'⟩ := ih h₁ hinv₁ hlast.tail
      refine ⟨w', by rw [List.map_cons, exec_cons_ok hperform, hexec], ?_, hinv'⟩
      rwa [exec_cons_ok he]
    | error c =>
      obtain ⟨rfl, rfl⟩ := Session.perform_eq_error he
      obtain rfl := hlast.eq_nil
      obtain ⟨w', hperform, hclosed, hinv'⟩ := h.close hinv
      refine ⟨w', by rw [List.map_cons, List.map_nil, exec_singleton, hperform], ?_, hinv'⟩
      rw [exec_singleton, he]
      exact hclosed

/-- The handler of the connection is called with a line. -/
theorem Alike.handleLine (h : Alike lib a s wire w) (hinv : Inv Handled none w) (line : Bytes) :
    ∃ w', callHandler (httphandle lib) a (.handleLine a line) w = .ok w' ∧
      Tracks lib a wire (s.feedLine lib a line) w' ∧ Inv Handled none w' := by
  have hlog : Alike lib a { s with handler := (s.handler.handleLine lib a line).1 } wire
      (w.log (.handleLine a line)) :=
    { h with handler := by rw [TcpServer.log_trace, handlerOf_line, h.handler] }
  rw [callHandler, if_pos h.pyHandles, Script.call, TcpServer.log_trace, httphandle_line,
    h.handler]
  exact hlog.effects (hinv.log (by simp)) (PyHandler.closesLast_handleLine lib a s.handler line)

theorem Alike.handleMessage (h : Alike lib a s wire w) (hinv : Inv Handled none w)
    (message : Bytes) :
    ∃ w', callHandler (httphandle lib) a (.handleMessage a message) w = .ok w' ∧
      Tracks lib a wire (s.called (s.handler.handleMessage message)) w' ∧
      Inv Handled none w' := by
  have hlog : Alike lib a { s with handler := (s.handler.handleMessage message).1 } wire
      (w.log (.handleMessage a message)) :=
    { h with handler := by rw [TcpServer.log_trace, handlerOf_message, h.handler] }
  rw [callHandler, if_pos h.pyHandles, Script.call, TcpServer.log_trace, httphandle_message,
    h.handler]
  exact hlog.effects (hinv.log (by simp)) (PyHandler.closesLast_handleMessage s.handler message)

/-- The line loop; it goes on after a close, and finds nothing then. -/
theorem Alike.lineLoop {turns : Nat} (h : Alike lib a s wire w) (hinv : Inv Handled none w)
    (hrest : ∀ c, Session.lineLoop lib a turns s = .error c → findCRLF c.preadBuf = none) :
    ∃ w', lineLoop (httphandle lib) a turns w = .ok w' ∧
      Tracks lib a wire (Session.lineLoop lib a turns s) w' ∧ Inv Handled none w' := by
  induction turns generalizing s w with
  | zero => exact ⟨w, rfl, h, hinv⟩
  | succ turns ih =>
    simp only [Session.lineLoop] at hrest ⊢
    simp only [HttpServer.lineLoop, h.preadBuf]
    cases hidx : findCRLF s.preadBuf with
    | none => exact ⟨w, rfl, h, hinv⟩
    | some idx =>
      simp only [hidx] at hrest
      have hdrop : (w.modify a fun t => { t with preadBuf := t.preadBuf.drop (idx + 2) }) =
          w.modify a fun t => { t with preadBuf := s.preadBuf.drop (idx + 2) } := by
        simp only [TcpServer.modify, h.preadBuf]
      have htaken := h.modifyRead (s.preadBuf.drop (idx + 2))
      obtain ⟨w₁, hcall, htracks, hinv₁⟩ :=
        htaken.handleLine (hinv.modifyRead _) (s.preadBuf.take idx)
      dsimp only
      rw [hdrop, hcall, ok_bind]
      cases hline : Session.feedLine lib a { s with preadBuf := s.preadBuf.drop (idx + 2) }
          (s.preadBuf.take idx) with
      | ok s₁ =>
        rw [hline] at htracks hrest
        rw [ok_bind]
        exact ih htracks hinv₁ hrest
      | error c =>
        rw [hline] at htracks hrest
        have hclosed : Closed a c wire w₁ := htracks
        have hnone : findCRLF (w₁.heap a).preadBuf = none := by
          rw [hclosed.preadBuf]
          exact hrest c rfl
        exact ⟨w₁, lineLoop_none hnone turns, hclosed, hinv₁⟩

/-- What `entered` reads of a connection is the same, and so is what it makes of it. -/
theorem Alike.entered_of (h : Alike lib a s wire (entered a w)) {v : TcpServer HttpHandles}
    (hstreams : a ∈ v.streams)
    (hhandles : a ∈ v.ext.handles ↔ a ∈ w.ext.handles)
    (hpyHandles : a ∈ v.ext.pyHandles ↔ a ∈ w.ext.pyHandles)
    (hsender : v.senders a = w.senders a) (hhanded : handedTo a v.trace = handedTo a w.trace)
    (hclosing : (v.heap a).closing = (w.heap a).closing)
    (hclosed : (v.heap a).closed = (w.heap a).closed) {b wire' : Bytes}
    (hbuf : (v.heap a).preadBuf = b) (haccount : wire' ++ (v.heap a).pwriteBuf = s.sent) :
    Alike lib a { s with preadBuf := b } wire' (entered a v) := by
  have hmade : ∀ u : TcpServer HttpHandles,
      handedTo a (makeHandle a u).trace = handedTo a u.trace := fun u =>
    (Extends.single (fun _ => ⟨rfl, rfl⟩) u.trace :
      Extends Obs.Silent u.trace (makeHandle a u).trace).handedTo_eq a
  by_cases hmem : a ∈ w.ext.handles
  · rw [entered, if_pos hmem] at h
    rw [entered, if_pos (hhandles.mpr hmem)]
    refine ⟨hstreams, hhandles.mpr hmem, hpyHandles.mpr h.pyHandles, ?_, hsender.trans h.sender,
      hbuf, haccount, hclosing.trans h.closing, hclosed.trans h.closed⟩
    rw [handlerOf, hhanded, ← handlerOf, h.handler]
  · rw [entered, if_neg hmem] at h
    rw [entered, if_neg fun hmem' => hmem (hhandles.mp hmem')]
    refine ⟨hstreams, Finset.mem_insert_self a _, Finset.mem_insert_self a _, ?_, ?_, hbuf,
      haccount, hclosing.trans h.closing, hclosed.trans h.closed⟩
    · rw [handlerOf, hmade, hhanded, ← hmade w, ← handlerOf, h.handler]
    · rw [← h.sender]
      simp [makeHandle]

theorem mem_entered : a ∈ (entered a w).streams ↔ a ∈ w.streams := by
  unfold entered
  split
  · rfl
  · rfl

/-- A step of another connection. -/
theorem Alike.of_apart (h : Alike lib a s wire (entered a w)) (hapart : Apart a w w') :
    Alike lib a s wire (entered a w') := by
  have hbuf := h.preadBuf
  have haccount := h.account
  rw [entered_heap, ← hapart.heap] at hbuf haccount
  exact h.entered_of (hapart.streams.mpr (mem_entered.mp h.streams)) hapart.handles
    hapart.pyHandles hapart.senders hapart.handed (by rw [hapart.heap]) (by rw [hapart.heap])
    hbuf haccount

/-- The bytes of a READ event. -/
theorem Alike.received (h : Alike lib a s wire (entered a w)) (chunk : Bytes) :
    Alike lib a { s with preadBuf := s.preadBuf ++ chunk } wire
      (entered a (w.received a chunk)) := by
  have hbuf := h.preadBuf
  have haccount := h.account
  rw [entered_heap] at hbuf haccount
  have ha : a ∈ w.streams := mem_entered.mp h.streams
  refine h.entered_of (v := w.received a chunk) ha Iff.rfl Iff.rfl rfl
    ((received_trace chunk).handedTo_eq a) ?_ ?_ ?_ ?_
  · rw [TcpServer.received_heap_self]
  · rw [TcpServer.received_heap_self]
  · rw [TcpServer.received_heap_self, ← hbuf]
  · rw [TcpServer.received_heap_self, ← haccount]

/-- **A READ event** of a connection does what it does to the session. -/
theorem Alike.readable (h : Alike lib a s wire (entered a w)) (hinv : Inv Handled none w)
    {chunk : Bytes} (hne : chunk ≠ [])
    (hrest : ∀ c, s.handleRead lib a chunk = .error c → findCRLF c.preadBuf = none) :
    ∃ w', readable (httpServer (httphandle lib)) w (a, chunk) = .ok w' ∧
      Tracks lib a wire (s.handleRead lib a chunk) w' ∧ Inv Handled none w' := by
  have ha := mem_entered.mp h.streams
  have hstart := h.received chunk
  have hinv' : Inv Handled none (entered a (w.received a chunk)) := by
    unfold entered
    split
    · exact hinv.received ha chunk
    · exact inv_makeHandle (hinv.received ha chunk) ha
  have hbuf : (s.preadBuf ++ chunk) ≠ [] := List.append_ne_nil_of_right_ne_nil _ hne
  rw [readable_http ha, httpHandleRead, hstart.sender, hstart.preadBuf, if_neg hbuf,
    Option.any_some]
  simp only [Session.handleRead] at hrest ⊢
  split at hrest
  · rename_i hlines
    rw [if_pos hlines, if_pos hlines]
    exact hstart.lineLoop hinv' hrest
  · rename_i hmessages
    rw [if_neg hmessages, if_neg hmessages]
    exact (hstart.modifyRead []).handleMessage (hinv'.modifyRead _) _

/-- A `handle_write` that does not fail. -/
theorem handleWrite_calm {rets : List Socket.SendRet} (hcalm : Socket.Calm rets) :
    TcpStream.handleWrite closer rets a w = TcpStream.afterWrite closer a (w.sent a rets) := by
  rw [TcpStream.handleWrite_eq]
  split
  · rfl
  · rename_i e he
    rw [hcalm.not_fatal he]
    rfl

/-- The kernel takes some of what the connection has sent. -/
theorem Alike.handleWrite (h : Alike lib a s wire (entered a w)) (hinv : Inv Handled none w)
    {rets : List Socket.SendRet} (hcalm : Socket.Calm rets)
    (hrepeats : Socket.Repeats (w.heap a).pwriteBuf 0 rets) :
    ∃ w', TcpStream.handleWrite closer rets a w = .ok w' ∧
      Alike lib a s (wire ++ (Socket.send (w.heap a).pwriteBuf rets).wire) (entered a w') := by
  have ha := mem_entered.mp h.streams
  have hopen := h.closing
  have hbuf := h.preadBuf
  have haccount := h.account
  rw [entered_heap] at hopen hbuf haccount
  have hsent := hinv.sent ha rets
  have htaken : Alike lib a s (wire ++ (Socket.send (w.heap a).pwriteBuf rets).wire)
      (entered a (w.sent a rets)) := by
    refine h.entered_of (v := w.sent a rets) (b := s.preadBuf) ha Iff.rfl Iff.rfl rfl ?_ ?_ ?_
      ?_ ?_
    · exact (Extends.single (fun _ => ⟨rfl, rfl⟩) w.trace :
        Extends Obs.Silent w.trace (w.sent a rets).trace).handedTo_eq a
    · rw [TcpServer.sent_heap_self]
    · rw [TcpServer.sent_heap_self]
    · rw [TcpServer.sent_heap_self, hbuf]
    · rw [TcpServer.sent_heap_self, List.append_assoc,
        (Socket.send_exact_iff _ _).mpr hrepeats, haccount]
  have hbuf' := htaken.preadBuf
  have haccount' := htaken.account
  rw [entered_heap] at hbuf' haccount'
  rw [handleWrite_calm hcalm]
  simp only [TcpStream.afterWrite]
  split
  · have hstays : ¬ ((w.sent a rets).heap a).closing = true := by
      rw [TcpServer.sent_heap_self, hopen]
      exact Bool.false_ne_true
    rw [hsent.disableWrite_eq ha, ok_bind, TcpServer.setEvents_closing, if_neg hstays]
    refine ⟨_, rfl, ?_⟩
    refine htaken.entered_of (v := (w.sent a rets).setEvents a _) (b := s.preadBuf) ha Iff.rfl
      Iff.rfl rfl rfl ?_ ?_ ?_ ?_
    · rw [TcpServer.setEvents_heap_self]
    · rw [TcpServer.setEvents_heap_self]
    · rw [TcpServer.setEvents_heap_self, hbuf']
    · rw [TcpServer.setEvents_heap_self, haccount']
  · exact ⟨_, rfl, htaken⟩

/-- A connection that has just been accepted. -/
theorem alike_connected (hfresh : w.maxConnectId + 1 ∉ w.ext.handles)
    (hhanded : handedTo (w.maxConnectId + 1) w.trace = []) (lib : Library) (fd : Nat) :
    Alike lib (w.maxConnectId + 1) {} [] (entered (w.maxConnectId + 1) (w.connected fd)) := by
  have hmade : handedTo (w.maxConnectId + 1)
      (makeHandle (w.maxConnectId + 1) (w.connected fd)).trace = [] :=
    ((Extends.single (fun _ => ⟨rfl, rfl⟩) _ : Extends Obs.Silent (w.connected fd).trace
      (makeHandle (w.maxConnectId + 1) (w.connected fd)).trace).handedTo_eq _).trans hhanded
  rw [entered, if_neg (by exact hfresh)]
  refine ⟨Finset.mem_insert_self _ _, Finset.mem_insert_self _ _, Finset.mem_insert_self _ _,
    ?_, ?_, ?_, ?_, ?_, ?_⟩
  · rw [handlerOf, hmade]
    rfl
  · simp [makeHandle]
  · simp [makeHandle]
  · simp [makeHandle]
  · simp [makeHandle]
  · simp [makeHandle]

theorem Alike.connected (h : Alike lib a s wire (entered a w)) (ha : a ≠ w.maxConnectId + 1)
    (fd : Nat) : Alike lib a s wire (entered a (w.connected fd)) := by
  have hheap : (w.connected fd).heap a = w.heap a := by
    rw [TcpServer.connected_heap, Function.update_of_ne ha]
  have hbuf := h.preadBuf
  have haccount := h.account
  rw [entered_heap, ← hheap] at hbuf haccount
  exact h.entered_of (v := w.connected fd) (Finset.mem_insert_of_mem (mem_entered.mp h.streams))
    Iff.rfl Iff.rfl rfl rfl (by rw [hheap]) (by rw [hheap]) hbuf haccount

/-! ### After the close -/

theorem Closed.of_apart (h : Closed a s wire w) (hapart : Apart a w w') :
    Closed a s wire w' where
  preadBuf := by rw [hapart.heap, h.preadBuf]
  account := by rw [hapart.heap, h.account]
  closing := by rw [hapart.heap, h.closing]
  streams := by rw [hapart.heap, hapart.streams, h.streams]

theorem Closed.connected (h : Closed a s wire w) (ha : a ≠ w.maxConnectId + 1) (fd : Nat) :
    Closed a s wire (w.connected fd) := by
  have hheap : (w.connected fd).heap a = w.heap a := by
    rw [TcpServer.connected_heap, Function.update_of_ne ha]
  refine ⟨?_, ?_, ?_, ?_⟩
  · rw [hheap, h.preadBuf]
  · rw [hheap, h.account]
  · rw [hheap, h.closing]
  · rw [hheap, ← h.streams]
    exact Finset.mem_insert.trans (or_iff_right ha)

/-- The connection is there as long as not all of it is on the wire. -/
theorem Closed.on_wire (h : Closed a s wire w) :
    wire ++ (w.heap a).pwriteBuf = s.sent ∧ (w.heap a).closing = true ∧
      (a ∈ w.streams ↔ wire ≠ s.sent) := by
  refine ⟨h.account, h.closing, h.streams.trans (not_congr ?_)⟩
  rw [← h.account]
  exact List.self_eq_append_right.symm

/-- A `handle_write` of a closed connection; the last one tears it down. -/
theorem Closed.handleWrite (h : Closed a s wire w) (hinv : Inv Handled none w)
    (ha : a ∈ w.streams) {rets : List Socket.SendRet} (hcalm : Socket.Calm rets)
    (hrepeats : Socket.Repeats (w.heap a).pwriteBuf 0 rets) :
    ∃ w', TcpStream.handleWrite closer rets a w = .ok w' ∧
      Closed a s (wire ++ (Socket.send (w.heap a).pwriteBuf rets).wire) w' := by
  have hsent := hinv.sent ha rets
  have haccount : wire ++ (Socket.send (w.heap a).pwriteBuf rets).wire ++
      (Socket.send (w.heap a).pwriteBuf rets).pbuf = s.sent := by
    rw [List.append_assoc, (Socket.send_exact_iff _ _).mpr hrepeats, h.account]
  rw [handleWrite_calm hcalm]
  simp only [TcpStream.afterWrite, TcpServer.sent_heap_self]
  split
  · rename_i hnil
    have hclosing : (((w.sent a rets).setEvents a
        { ((w.sent a rets).heap a).events with write := false }).heap a).closing = true := by
      rw [TcpServer.setEvents_closing, TcpServer.sent_heap_self, h.closing]
    have hnil' : (((w.sent a rets).setEvents a
        { ((w.sent a rets).heap a).events with write := false }).heap a).pwriteBuf = [] := by
      rw [TcpServer.setEvents_pwriteBuf, TcpServer.sent_heap_self, hnil]
    have hinv' := hsent.setEvents ha
      (e := { ((w.sent a rets).heap a).events with write := false })
      fun hne => absurd (by rw [TcpServer.sent_heap_self, hnil]) hne
    rw [hsent.disableWrite_eq ha, ok_bind, if_pos hclosing]
    refine ⟨_, close_drained hinv' ha (hinv.owned a ha (.inl h.closing)) hnil', ?_⟩
    rw [hnil] at haccount
    refine ⟨?_, ?_, ?_, ?_⟩
    · simp [tearDown, TcpServer.tearDown_heap, h.preadBuf]
    · simpa [tearDown, TcpServer.tearDown_heap, hnil] using haccount
    · simp [tearDown, TcpServer.tearDown_heap]
    · simp [tearDown, TcpServer.tearDown_heap, hnil]
  · rename_i hne
    refine ⟨_, rfl, ?_, ?_, ?_, ?_⟩
    · rw [TcpServer.sent_heap_self, h.preadBuf]
    · rw [TcpServer.sent_heap_self, haccount]
    · rw [TcpServer.sent_heap_self, h.closing]
    · rw [TcpServer.sent_heap_self]
      exact iff_of_true ha hne

end Server.HttpServer

end MixServer
