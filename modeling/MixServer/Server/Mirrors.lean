import MixServer.Server.BufferedRuns

/-!
What the servers over their memory do as long as they lose nothing.

`Mirrors` says that a method which has lost nothing does what the server without memory does.
A server `Refines` its `base` if its reads do; then `run_mirrors` is for whole runs: if no
waiting byte has been lost, the server without memory, given the same bytes and the same answers
of the kernel, has come to the same state, its trace included. Both servers refine theirs
(`BufferedMsgServer.refines`, `BufferedHttpServer.refines`), so that what is proved of them
without memory holds of them over it until a reallocation loses a byte.
-/

namespace MixServer.Server

open Lib Net
open Function (update)

variable {ε : Type}

/-- The bytes and the answers of the kernel, without the memory for them. -/
def BufferedIo.erase (io : BufferedIo) : Io where
  recv := ⟨io.recv.blocks.map Prod.fst, io.recv.last⟩
  send := io.send
  accept := io.accept

def Buffered.Event.erase : Buffered.Event → Server.Event
  | .select fd events io => .select fd events io.erase
  | .timer actions => .timer actions

namespace Buffered

variable {m : Buffered ε} {a : Nat} {r : Except Crash (Buffered ε)}
  {r' : Except Crash (TcpServer ε)}

/-- What started in `m` and came to `r` has kept the buffers in step, and is what came to `r'`
without memory, unless something is lost. -/
def Mirrors (m : Buffered ε) (r : Except Crash (Buffered ε)) (r' : Except Crash (TcpServer ε)) :
    Prop :=
  Ensures r (fun m' => m'.Sync ∧ (m'.lost = false → m.lost = false ∧ r' = .ok m'.server))
    fun _ => True

theorem Sync.mirrors (h : m.Sync) : Mirrors m (.ok m) (.ok m.server) :=
  ⟨h, fun hkept => ⟨hkept, rfl⟩⟩

theorem Mirrors.bind {f : BufferedMethod ε} {f' : Method ε} (h : Mirrors m r r')
    (hf : ∀ m', m'.Sync → Mirrors m' (f m') (f' m'.server)) :
    Mirrors m (r >>= f) (r' >>= f') := by
  refine Ensures.bind h ?_
  rintro m₁ ⟨hsync, heq⟩
  refine (hf m₁ hsync).mono ?_ fun _ => id
  rintro m₂ ⟨hsync₂, heq₂⟩
  refine ⟨hsync₂, fun hkept => ?_⟩
  obtain ⟨hkept₁, hideal⟩ := heq₂ hkept
  obtain ⟨hkept₀, hfirst⟩ := heq hkept₁
  rw [hfirst]
  exact ⟨hkept₀, hideal⟩

/-- A method that loses nothing. -/
theorem Mirrors.of_views (h : Views server (Steady m.lost) r r') : Mirrors m r r' := by
  obtain ⟨rfl, hinv⟩ := h
  cases r with
  | error x => trivial
  | ok m' => exact ⟨hinv.sync, fun hkept => ⟨hinv.lost_eq.symm.trans hkept, rfl⟩⟩

/-- A method that starts where `m` has come to without losing anything. -/
theorem Mirrors.of_start {m₁ : Buffered ε} (h : Mirrors m₁ r r') (hlost : m₁.lost = m.lost) :
    Mirrors m r r' := by
  refine h.mono ?_ fun _ => id
  rintro m' ⟨hsync, heq⟩
  exact ⟨hsync, fun hkept => hlost ▸ heq hkept⟩

/-- A method that starts after a write into a buffer. -/
theorem Mirrors.of_account {m₁ : Buffered ε} {pbuf pbuf' : Buffer} {p : Bytes} {g : Method ε}
    {w : TcpServer ε} (h : Mirrors m₁ r (g m₁.server))
    (hlost : m₁.lost = (m.account pbuf p pbuf').lost)
    (hsame : pbuf'.readable = pbuf.readable ++ p → m₁.server = w) : Mirrors m r (g w) := by
  refine h.mono ?_ fun _ => id
  rintro m' ⟨hsync, heq⟩
  refine ⟨hsync, fun hkept => ?_⟩
  obtain ⟨hnone, hideal⟩ := heq hkept
  rw [hlost] at hnone
  simp only [account, Bool.or_eq_false_iff, decide_eq_false_iff_not, not_not] at hnone
  rw [← hsame hnone.2]
  exact ⟨hnone.1, hideal⟩

/-- A run mirrors another if its steps do. -/
theorem Sync.exec_mirrors {ι ι' : Type*} {step : Buffered ε → ι → Except Crash (Buffered ε)}
    {step' : TcpServer ε → ι' → Except Crash (TcpServer ε)} (erase : ι → ι')
    (hstep : ∀ m i, m.Sync → Mirrors m (step m i) (step' m.server (erase i))) (h : m.Sync)
    (is : List ι) : Mirrors m (exec step m is) (exec step' m.server (is.map erase)) := by
  induction is generalizing m with
  | nil => exact h.mirrors
  | cons i is ih =>
    rw [List.map_cons, exec_cons, exec_cons]
    exact (hstep m i h).bind fun m' h' => ih h'

/-! ### `TcpStream` -/

/-- `TcpStream::send`. -/
theorem Sync.send_mirrors (h : m.Sync) (alloc : Buffered ε → Nat → UInt8) (a : Nat) (p : Bytes) :
    Mirrors m (BufferedTcpStream.send alloc a p m) (TcpStream.send a p m.server) := by
  have hwrite := Buffer.fits_writeString (h.pwrite a) p (alloc m)
  simp only [BufferedTcpStream.send]
  cases hpbuf : (m.pwrite a).writeString p (alloc m) with
  | error x => trivial
  | ok pbuf =>
    have hput := (h.account (m.pwrite a) p pbuf).setPwrite (hwrite.of_ok hpbuf).1 a
    refine (Mirrors.of_views (hput.lift_views (aside_enableWrite a))).of_account
      (g := TcpStream.enableWrite a) rfl fun hreadable => ?_
    simp only [Buffered.setPwrite, Buffered.account, hreadable, ← h.pwriteBuf, TcpServer.modify]

/-- If no byte is lost, the server sees what was sent. -/
theorem Sync.server_received (h : m.Sync) {blocks : List Block}
    (hreceives : (m.pread a).Receives blocks) :
    (m.received a blocks).server = m.server.received a (Buffer.bytes blocks) := by
  rw [Buffer.Receives] at hreceives
  simp only [Buffered.received, Buffered.setPread, Buffered.account, Buffered.log,
    TcpServer.received, hreceives, ← h.preadBuf, TcpServer.modify, TcpServer.log_heap]

/-- The server does over the memory what it does without. -/
structure Refines (C : BufferedClass ε) : Prop where
  aside : ∀ a, Aside (C.base.closeConnect a)
  connects : C.base.newConnect = TcpServer.newConnect
  reads : ∀ {m : Buffered ε} (a : Nat), m.Sync →
    Mirrors m (C.handleRead a m) (C.base.handleRead a m.server)

variable {C : BufferedClass ε}

/-- `TcpStream::handle_read`. -/
theorem Refines.handleRead (hC : Refines C) (h : m.Sync) (d : ReadDispatch) (a : Nat) :
    Mirrors m (BufferedTcpStream.handleRead C d a m)
      (TcpStream.handleRead C.base ⟨d.blocks.map Prod.fst, d.last⟩ a m.server) := by
  have hrecv := h.received a d.blocks
  rw [TcpStream.handleRead_eq, handleRead_eq, ← Buffer.bytes]
  cases d.last with
  | eof =>
    exact (Mirrors.of_views (hrecv.lift_views (aside_close hC.aside a))).of_account
      (g := TcpStream.close C.base.closeConnect a) rfl h.server_received
  | error e =>
    dsimp only
    split
    · have hlog : ((m.received a d.blocks).log (.recvError a e)).Sync :=
        hrecv.of_same (.refl _) (.refl _)
      exact (Mirrors.of_views (hlog.lift_views (aside_close hC.aside a))).of_account
        (g := TcpStream.close C.base.closeConnect a) rfl
        fun hreceives => congrArg (·.log (.recvError a e)) (h.server_received hreceives)
    · exact (hC.reads a hrecv).of_account (g := C.base.handleRead a) rfl h.server_received

/-- `TcpStream::handle_write`. -/
theorem Refines.handleWrite (hC : Refines C) (h : m.Sync) (rets : List Socket.SendRet) (a : Nat) :
    Mirrors m (BufferedTcpStream.handleWrite C rets a m)
      (TcpStream.handleWrite C.base rets a m.server) :=
  .of_views (h.handleWrite_views hC.aside rets a)

/-! ### Dispatch -/

/-- `Handle::handle_event` of a `TcpStream`. -/
theorem Refines.handleEvent (hC : Refines C) (h : m.Sync) (io : BufferedIo) (a : Nat) :
    Mirrors m (BufferedTcpStream.handleEvent C io a m)
      (TcpStream.handleEvent C.base io.erase a m.server) := by
  refine Mirrors.bind ?_ ?_
  · split
    · exact hC.handleRead h io.recv a
    · exact h.mirrors
  · intro m' h'
    split
    · exact hC.handleWrite h' io.send a
    · exact h'.mirrors

/-- One entry of `EventLoop::do_select`. -/
theorem Refines.doSelect (hC : Refines C) (h : m.Sync) (fd : Nat) (events : Events)
    (io : BufferedIo) :
    Mirrors m (Buffered.doSelect C fd events io m)
      (Server.doSelect C.base fd events io.erase m.server) := by
  simp only [Buffered.doSelect, Server.doSelect]
  cases m.server.ploop.handles fd with
  | none => trivial
  | some p =>
    cases p with
    | acceptor =>
      dsimp only
      split
      · simp only [BufferedAcceptor.handleRead, Acceptor.handleRead, BufferedIo.erase]
        cases io.accept with
        | error => trivial
        | conn fd peer => exact .of_views (h.newConnect_views hC.connects fd peer)
      · exact h.mirrors
    | stream a =>
      have hdispatched : Sync
          { m with server := m.server.modify a fun s => { s with revents := events } } :=
        h.of_same (same_modify (by exact fun _ => rfl) a)
          (same_modify (by exact fun _ => rfl) a)
      exact (hC.handleEvent hdispatched io a).of_start (m := m) rfl

/-! ### The script -/

section Script

variable {closeConnect : Nat → Method ε} (haside : ∀ a, Aside (closeConnect a))
  (alloc : Buffered ε → Nat → UInt8)

include haside

/-- One action of a script. -/
theorem Sync.perform_mirrors (h : m.Sync) (act : Action) :
    Mirrors m (perform alloc closeConnect m act) (act.perform closeConnect m.server) := by
  cases act with
  | send b p =>
    simp only [Buffered.perform, Action.perform]
    split
    · exact h.send_mirrors alloc b p
    · exact h.mirrors
  | close b => exact .of_views (h.lift_views (aside_performClose haside b))
  | setReadingLine b value =>
    exact .of_views (h.lift_views (f := fun w => (Action.setReadingLine b value).perform
      closeConnect w) ⟨fun w => Same.refl w, fun w => Same.refl w⟩)

theorem Sync.performAll_mirrors (h : m.Sync) (acts : List Action) :
    Mirrors m (exec (perform alloc closeConnect) m acts)
      (exec (Action.perform closeConnect) m.server acts) := by
  have hall := h.exec_mirrors id
    (fun _ act h' => h'.perform_mirrors haside alloc act) acts
  rwa [List.map_id] at hall

end Script

/-! ### Runs -/

/-- One step of the loop. -/
theorem Refines.step (hC : Refines C) (alloc : Buffered ε → Nat → UInt8) (h : m.Sync) (e : Event) :
    Mirrors m (Buffered.step alloc C m e) (Server.step C.base m.server e.erase) := by
  cases e with
  | select fd events io => exact hC.doSelect h fd events io
  | timer actions => exact h.performAll_mirrors hC.aside alloc actions

/-- **A run that loses nothing** is the run of the server without memory. -/
theorem Refines.run_mirrors (hC : Refines C) (alloc : Buffered ε → Nat → UInt8) (fd : Nat) (ext : ε)
    (es : List Event) :
    Mirrors (bind fd ext) (exec (Buffered.step alloc C) (bind fd ext) es)
      (exec (Server.step C.base) (TcpServer.bind fd ext) (es.map Event.erase)) :=
  (sync_bind fd ext).exec_mirrors Event.erase (fun _ e h => hC.step alloc h e) es

end Buffered

open Buffered (Mirrors Refines)

/-! ### `MsgServer` -/

namespace BufferedMsgServer

variable {alloc : Buffered ConnMsgs → Nat → UInt8} {H : Handler} {m : Buffered ConnMsgs} {a : Nat}

theorem sync_setMsg (h : m.Sync) (a : Nat) (pmsg : Msg) : (setMsg a pmsg m).Sync :=
  h.of_same (.refl _) (.refl _)

theorem sendMsg_mirrors (alloc : Buffered ConnMsgs → Nat → UInt8) (h : m.Sync)
    (reply : Nat × Bytes) :
    Mirrors m (sendMsg alloc m reply) (MsgServer.sendMsg m.server reply) := by
  simp only [sendMsg, MsgServer.sendMsg]
  split
  · exact h.send_mirrors alloc reply.1 reply.2
  · exact h.mirrors

theorem handleMsg_mirrors (h : m.Sync) (a : Nat) :
    Mirrors m (handleMsg alloc H a m) (MsgServer.handleMsg H a m.server) := by
  have hlog : (m.log (.handleMsg a (MsgServer.msg a m.server).prawData)).Sync :=
    h.of_same (.refl _) (.refl _)
  have hmsg : ∀ o, MsgServer.msg a (m.server.log o) = MsgServer.msg a m.server := fun _ => rfl
  have hserver : ∀ o, (m.log o).server = m.server.log o := fun _ => rfl
  simp only [handleMsg, MsgServer.handleMsg, hserver, hmsg]
  cases H.onMsg a (MsgServer.msg a m.server).prawData with
  | error c => trivial
  | ok praw =>
    have hset := sync_setMsg hlog a { MsgServer.msg a m.server with prawData := praw }
    have hall := hset.exec_mirrors id (fun _ reply h' => sendMsg_mirrors alloc h' reply)
      (H.replies (m.log (.handleMsg a (MsgServer.msg a m.server).prawData)).server.trace)
    rw [List.map_id] at hall
    exact hall.of_start rfl

theorem handleReadN_mirrors (h : m.Sync) (depth : Nat) :
    Mirrors m (handleReadN alloc H a depth m) (MsgServer.handleReadN H a depth m.server) := by
  induction depth generalizing m with
  | zero => exact h.mirrors
  | succ depth ih =>
    have hfill := fillFrom_spec (MsgServer.msg a m.server) (h.pread a)
    simp only [handleReadN, MsgServer.handleReadN]
    split
    · rw [h.preadBuf]
      cases hr : fillFrom (MsgServer.msg a m.server) (m.pread a) with
      | error c =>
        rw [hfill.of_error hr]
        trivial
      | ok r =>
        obtain ⟨pmsg, pbuf, complete⟩ := r
        obtain ⟨hpbuf, heq⟩ := hfill.of_ok hr
        have hstore := sync_setMsg (h.setPread hpbuf a) a pmsg
        rw [heq]
        dsimp only
        split
        · refine Mirrors.of_start (m := m) ((handleMsg_mirrors hstore a).bind ?_) rfl
          intro m' h'
          have hclear := sync_setMsg h' a (MsgServer.msg a m'.server).clear
          have hsize : ((MsgServer.setMsg a (MsgServer.msg a m'.server).clear
              m'.server).heap a).preadBuf.length =
              ((setMsg a (MsgServer.msg a m'.server).clear m').pread a).readableSize :=
            (congrArg List.length (hclear.preadBuf a)).trans
              (Buffer.length_readable (hclear.pread a))
          rw [hsize]
          split
          · exact (ih hclear).of_start rfl
          · exact hclear.mirrors
        · exact hstore.mirrors
    · trivial

theorem refines (alloc : Buffered ConnMsgs → Nat → UInt8) (H : Handler) :
    Refines (bufferedMsgServer alloc H) where
  aside := Buffered.aside_closeConnect
  connects := rfl
  reads {m} a h := by
    change Mirrors m (handleReadN alloc H a _ m) (MsgServer.handleReadN H a _ m.server)
    rw [h.preadBuf, Buffer.length_readable (h.pread a)]
    exact handleReadN_mirrors h _

end BufferedMsgServer

/-! ### `HttpServer` -/

namespace BufferedHttpServer

variable {alloc : Buffered HttpHandles → Nat → UInt8} {script : Script}
  {m : Buffered HttpHandles} {a : Nat}

theorem callHandler_mirrors (h : m.Sync) (a : Nat) (o : Obs) :
    Mirrors m (callHandler alloc script a o m) (HttpServer.callHandler script a o m.server) := by
  have hlog : (m.log o).Sync := h.of_same (.refl _) (.refl _)
  simp only [callHandler, HttpServer.callHandler]
  split
  · exact (hlog.performAll_mirrors Buffered.aside_http alloc _).of_start (m := m) rfl
  · exact h.mirrors

theorem lineLoop_mirrors (h : m.Sync) (turns : Nat) :
    Mirrors m (lineLoop alloc script a turns m) (HttpServer.lineLoop script a turns m.server) := by
  induction turns generalizing m with
  | zero => exact h.mirrors
  | succ turns ih =>
    have hwf := h.pread a
    simp only [lineLoop, HttpServer.lineLoop, h.preadBuf]
    cases hidx : findCRLF (m.pread a).readable with
    | none => exact h.mirrors
    | some idx =>
      have hlt := findCRLF_lt hidx
      rw [Buffer.length_readable hwf] at hlt
      obtain ⟨hline, hleft, hpbuf⟩ := Buffer.readBytes_spec hwf (n := idx + 2) (by omega)
      have hread := h.setPread hpbuf a
      have hserver : (m.setPread a ((m.pread a).readBytes (idx + 2)).2).server =
          m.server.modify a fun s => { s with preadBuf := s.preadBuf.drop (idx + 2) } := by
        simp only [Buffered.setPread, hleft, ← h.preadBuf, TcpServer.modify]
      have hprefix : ((m.pread a).readBytes (idx + 2)).1.take idx =
          (m.pread a).readable.take idx := by
        rw [hline, List.take_take, Nat.min_eq_left (by omega)]
      dsimp only
      rw [← hserver, ← hprefix]
      exact Mirrors.of_start (m := m)
        ((callHandler_mirrors hread a _).bind fun m' h' => ih h') rfl

theorem httpHandleRead_mirrors (h : m.Sync) :
    Mirrors m (httpHandleRead alloc script a m)
      (HttpServer.httpHandleRead script a m.server) := by
  have hwf := h.pread a
  have hlength := Buffer.length_readable hwf
  simp only [httpHandleRead, HttpServer.httpHandleRead, h.preadBuf, hlength,
    ← List.length_eq_zero_iff]
  split
  · exact lineLoop_mirrors h _
  · split
    · trivial
    · obtain ⟨hall, hleft, hpbuf⟩ := Buffer.readAllBytes_spec hwf
      have hserver : (m.setPread a (m.pread a).readAllBytes.2).server =
          m.server.modify a fun s => { s with preadBuf := [] } := by
        rw [Buffered.setPread, hleft]
      rw [← hserver, ← hall]
      exact (callHandler_mirrors (h.setPread hpbuf a) a _).of_start (m := m) rfl

theorem refines (alloc : Buffered HttpHandles → Nat → UInt8) (script : Script) :
    Refines (bufferedHttpServer alloc script) where
  aside := Buffered.aside_http
  connects := rfl
  reads {m} a h := by
    change Mirrors m (handleRead alloc script a m) (HttpServer.handleRead script a m.server)
    simp only [handleRead, HttpServer.handleRead]
    split
    · split
      · exact httpHandleRead_mirrors h
      · have hmade : Buffered.Sync { m with server := HttpServer.makeHandle a m.server } :=
          h.of_same (.refl _) (.refl _)
        exact (httpHandleRead_mirrors hmade).of_start (m := m) rfl
    · trivial

end BufferedHttpServer

/-! ### Both servers -/

/-- **The memory refines the streams of bytes.** A run of either server over the memory of its
buffers, in which every write leaves in its buffer what could be read and what was written, is
the run of the server without memory over the same bytes and the same answers of the kernel; and
its streams hold what can be read in the buffers. -/
theorem run_refines (fd : Nat) (es : List Buffered.Event) :
    (∀ (alloc : Buffered ConnMsgs → Nat → UInt8) (H : Handler) (m : Buffered ConnMsgs),
      exec (Buffered.step alloc (bufferedMsgServer alloc H)) (Buffered.bind fd fun _ => none) es =
        .ok m → m.lost = false →
      exec (step (msgServer H)) (TcpServer.bind fd fun _ => none) (es.map Buffered.Event.erase) =
        .ok m.server ∧
      ∀ a, (m.server.heap a).preadBuf = (m.pread a).readable ∧
        (m.server.heap a).pwriteBuf = (m.pwrite a).readable) ∧
    (∀ (alloc : Buffered HttpHandles → Nat → UInt8) (script : Script) (m : Buffered HttpHandles),
      exec (Buffered.step alloc (bufferedHttpServer alloc script)) (Buffered.bind fd {}) es =
        .ok m → m.lost = false →
      exec (step (httpServer script)) (TcpServer.bind fd {}) (es.map Buffered.Event.erase) =
        .ok m.server ∧
      ∀ a, (m.server.heap a).preadBuf = (m.pread a).readable ∧
        (m.server.heap a).pwriteBuf = (m.pwrite a).readable) := by
  constructor
  · intro alloc H m hrun hkept
    obtain ⟨hsync, heq⟩ :=
      ((BufferedMsgServer.refines alloc H).run_mirrors alloc fd _ es).of_ok hrun
    exact ⟨(heq hkept).2, fun a => ⟨hsync.preadBuf a, hsync.pwriteBuf a⟩⟩
  · intro alloc script m hrun hkept
    obtain ⟨hsync, heq⟩ :=
      ((BufferedHttpServer.refines alloc script).run_mirrors alloc fd _ es).of_ok hrun
    exact ⟨(heq hkept).2, fun a => ⟨hsync.preadBuf a, hsync.pwriteBuf a⟩⟩

/-- A script that sends each line back. -/
def repeating : Script := fun trace =>
  match trace.getLast? with
  | some (.handleLine a line) => [.send a line]
  | _ => []

/-- A connection gets a line, and the kernel takes the first byte of the answer. -/
def oneLine : List Buffered.Event :=
  [.select 3 { read := true } ⟨⟨[], .eof⟩, [], .conn 4 true⟩,
    .select 4 { read := true } ⟨⟨[([71, 69, 84, 13, 10], fun _ => 0)], .error .EAGAIN⟩, [], .error⟩,
    .select 4 { write := true } ⟨⟨[], .eof⟩, [.accepted 0], .error⟩]

theorem run_refines_oneLine :
    ∃ m, exec (Buffered.step (fun _ _ => 0) (bufferedHttpServer (fun _ _ => 0) repeating))
        (Buffered.bind 3 {}) oneLine = .ok m ∧ (m.pwrite 1).readable = [69, 84] ∧
      exec (step (httpServer repeating)) (TcpServer.bind 3 {})
        (oneLine.map Buffered.Event.erase) = .ok m.server ∧
      ∀ a, (m.server.heap a).preadBuf = (m.pread a).readable ∧
        (m.server.heap a).pwriteBuf = (m.pwrite a).readable := by
  have hrun : (exec (Buffered.step (fun _ _ => 0) (bufferedHttpServer (fun _ _ => 0) repeating))
      (Buffered.bind 3 {}) oneLine).toOption.map (fun m => (m.lost, (m.pwrite 1).readable)) =
        some (false, [69, 84]) := by
    decide +kernel
  cases hm : exec (Buffered.step (fun _ _ => 0) (bufferedHttpServer (fun _ _ => 0) repeating))
      (Buffered.bind 3 {}) oneLine with
  | error x =>
    rw [hm] at hrun
    cases hrun
  | ok m =>
    rw [hm] at hrun
    obtain ⟨hkept, hread⟩ := Prod.mk.inj (Option.some.inj hrun)
    exact ⟨m, rfl, hread, (run_refines 3 oneLine).2 _ repeating m hm hkept⟩

end MixServer.Server
