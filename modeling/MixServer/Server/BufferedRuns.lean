import MixServer.Server.Buffered

/-!
Runs of the servers over their memory.

`Good` holds in every state that is reached (`run_good`): the streams hold what can be read in
the buffers, the bounds of the buffers are in order, and the server is as `Inv` says. It does not
matter here whether a byte has been lost.
-/

namespace MixServer.Server

open Lib Net
open Function (update)

variable {ε : Type} {A : ε → Nat → Prop} {E : Crash → Prop} {busy : Option Nat}

namespace Buffered

variable {m : Buffered ε} {a : Nat} {w : TcpServer ε} {f : Method ε}

/-! ### The buffers and the streams -/

/-- The bounds are in order, and the streams hold what can be read. -/
structure Sync (m : Buffered ε) : Prop where
  pread : ∀ a, (m.pread a).Wf
  pwrite : ∀ a, (m.pwrite a).Fits
  preadBuf : ∀ a, (m.server.heap a).preadBuf = (m.pread a).readable
  pwriteBuf : ∀ a, (m.server.heap a).pwriteBuf = (m.pwrite a).readable

theorem readable_new : Buffer.new.readable = [] :=
  List.eq_nil_of_length_eq_zero (Buffer.length_readable Buffer.wf_new)

theorem sync_bind (fd : Nat) (ext : ε) : (bind fd ext).Sync where
  pread _ := Buffer.wf_new
  pwrite _ := Buffer.fits_new
  preadBuf _ := readable_new.symm
  pwriteBuf _ := readable_new.symm

/-- The method touches no buffer. -/
def Aside (f : Method ε) : Prop := Keeps TcpStream.preadBuf f ∧ Keeps TcpStream.pwriteBuf f

theorem Sync.of_same (h : m.Sync) (hread : Same TcpStream.preadBuf m.server w)
    (hwrite : Same TcpStream.pwriteBuf m.server w) : Sync { m with server := w } where
  pread := h.pread
  pwrite := h.pwrite
  preadBuf b := (hread b).trans (h.preadBuf b)
  pwriteBuf b := (hwrite b).trans (h.pwriteBuf b)

theorem Sync.account (h : m.Sync) (pbuf : Buffer) (p : Bytes) (pbuf' : Buffer) :
    (m.account pbuf p pbuf').Sync :=
  ⟨h.pread, h.pwrite, h.preadBuf, h.pwriteBuf⟩

theorem Sync.setPread (h : m.Sync) {pbuf : Buffer} (wf : pbuf.Wf) (a : Nat) :
    (m.setPread a pbuf).Sync where
  pread b := by
    simp only [Buffered.setPread, Function.update_apply]
    split
    · exact wf
    · exact h.pread b
  pwrite := h.pwrite
  preadBuf b := by
    simp only [Buffered.setPread, TcpServer.modify_heap, Function.update_apply]
    split
    · rfl
    · exact h.preadBuf b
  pwriteBuf b := by
    simp only [Buffered.setPread, TcpServer.modify_heap]
    split
    · rename_i hb
      exact hb ▸ h.pwriteBuf a
    · exact h.pwriteBuf b

theorem Sync.setPwrite (h : m.Sync) {pbuf : Buffer} (fits : pbuf.Fits) (a : Nat) :
    (m.setPwrite a pbuf).Sync where
  pread := h.pread
  pwrite b := by
    simp only [Buffered.setPwrite, Function.update_apply]
    split
    · exact fits
    · exact h.pwrite b
  preadBuf b := by
    simp only [Buffered.setPwrite, TcpServer.modify_heap]
    split
    · rename_i hb
      exact hb ▸ h.preadBuf a
    · exact h.preadBuf b
  pwriteBuf b := by
    simp only [Buffered.setPwrite, TcpServer.modify_heap, Function.update_apply]
    split
    · rfl
    · exact h.pwriteBuf b

/-- The blocks of a receive loop are in the buffer. -/
def received (a : Nat) (blocks : List Block) (m : Buffered ε) : Buffered ε :=
  setPread a ((m.pread a).recvInto blocks)
    (account (m.pread a) (Buffer.bytes blocks) ((m.pread a).recvInto blocks)
      (m.log (.handleRead a)))

@[simp] theorem received_pread_self (blocks : List Block) :
    (m.received a blocks).pread a = (m.pread a).recvInto blocks := Function.update_self ..

theorem Sync.received (h : m.Sync) (a : Nat) (blocks : List Block) :
    (m.received a blocks).Sync :=
  ((h.of_same (.refl _) (.refl _) : (m.log (.handleRead a)).Sync).account _ _ _).setPread
    (Buffer.wf_recvInto (h.pread a) blocks) a

theorem handleRead_eq (C : BufferedClass ε) (d : ReadDispatch) (a : Nat) (m : Buffered ε) :
    BufferedTcpStream.handleRead C d a m =
      match d.last with
      | .eof => (m.received a d.blocks).lift (TcpStream.close C.base.closeConnect a)
      | .error e =>
          if e.fatal then
            ((m.received a d.blocks).log (.recvError a e)).lift
              (TcpStream.close C.base.closeConnect a)
          else C.handleRead a (m.received a d.blocks) := rfl

theorem aside_enableWrite (a : Nat) : Aside (TcpStream.enableWrite (ε := ε) a) :=
  ⟨keeps_enableWrite isBuffer_preadBuf a, keeps_enableWrite isBuffer_pwriteBuf a⟩

theorem aside_closeConnect (a : Nat) : Aside (TcpServer.closeConnect (ε := ε) a) :=
  ⟨keeps_closeConnect isBuffer_preadBuf a, keeps_closeConnect isBuffer_pwriteBuf a⟩

theorem aside_http (a : Nat) : Aside (HttpServer.closeConnect a) :=
  ⟨HttpServer.keeps_closeConnect isBuffer_preadBuf a,
    HttpServer.keeps_closeConnect isBuffer_pwriteBuf a⟩

section Closing

variable {closeConnect : Nat → Method ε} (haside : ∀ a, Aside (closeConnect a))

include haside

theorem aside_close (a : Nat) : Aside (TcpStream.close closeConnect a) :=
  ⟨keeps_close isBuffer_preadBuf (fun a => (haside a).1) a,
    keeps_close isBuffer_pwriteBuf (fun a => (haside a).2) a⟩

theorem aside_afterWrite {C : ServerClass ε} (hC : C.closeConnect = closeConnect) (a : Nat) :
    Aside (TcpStream.afterWrite C a) :=
  ⟨keeps_afterWrite isBuffer_preadBuf (fun a => hC ▸ (haside a).1) a,
    keeps_afterWrite isBuffer_pwriteBuf (fun a => hC ▸ (haside a).2) a⟩

theorem aside_performClose (a : Nat) :
    Aside fun w => Action.perform closeConnect w (.close a) :=
  ⟨keeps_performClose isBuffer_preadBuf (fun a => (haside a).1) a,
    keeps_performClose isBuffer_pwriteBuf (fun a => (haside a).2) a⟩

end Closing

/-- The buffers are in step, and no more is lost than was. -/
structure Steady (lost : Bool) (m : Buffered ε) : Prop where
  sync : m.Sync
  lost_eq : m.lost = lost

/-- A method that touches no buffer, called over the memory. -/
theorem Sync.lift_views (h : m.Sync) (hf : Aside f) :
    Views server (Steady m.lost) (m.lift f) (f m.server) := by
  have hread := hf.1 m.server
  have hwrite := hf.2 m.server
  unfold Buffered.lift
  cases hr : f m.server with
  | error x => exact views_error x
  | ok w => exact ⟨rfl, h.of_same (hread.of_ok hr) (hwrite.of_ok hr), rfl⟩

/-- `TcpStream::handle_write` takes from the memory what it takes without it. -/
theorem Sync.handleWrite_views (h : m.Sync) {C : BufferedClass ε}
    (haside : ∀ a, Aside (C.base.closeConnect a)) (rets : List Socket.SendRet) (a : Nat) :
    Views server (Steady m.lost) (BufferedTcpStream.handleWrite C rets a m)
      (TcpStream.handleWrite C.base rets a m.server) := by
  obtain ⟨out, n, hsend, hn, hpbuf, hideal⟩ := Buffer.send_spec (h.pwrite a).wf rets
  have hfits : out.pbuf.Fits := by
    rw [hpbuf]
    exact ⟨(h.pwrite a).wf.advance hn, (h.pwrite a).end_lt⟩
  have hlog : (m.log (.handleWrite a)).Sync := h.of_same (.refl _) (.refl _)
  have hsent := hlog.setPwrite hfits a
  have hserver : ((m.log (.handleWrite a)).setPwrite a out.pbuf).server = m.server.sent a rets := by
    simp only [Buffered.setPwrite, Buffered.log, TcpServer.sent, TcpServer.modify,
      TcpServer.log_heap, h.pwriteBuf, hideal]
  have hafter := hsent.lift_views (aside_afterWrite haside rfl a)
  rw [TcpStream.handleWrite_eq, ← hserver, h.pwriteBuf, hideal]
  simp only [BufferedTcpStream.handleWrite]
  rw [show ((m.log (.handleWrite a)).pwrite a).send rets = .ok out from hsend]
  dsimp only
  cases out.error with
  | none => exact hafter
  | some e =>
    dsimp only
    split
    · have hmarked : (((m.log (.handleWrite a)).setPwrite a out.pbuf).log (.sendError a e)).Sync :=
        hsent.of_same (.refl _) (.refl _)
      exact hmarked.lift_views (aside_close haside a)
    · exact hafter

/-- A connection that is accepted gets empty buffers. -/
theorem Sync.newConnect_views (h : m.Sync) {C : BufferedClass ε}
    (hconnects : C.base.newConnect = TcpServer.newConnect) (fd : Nat) (peer : Bool) :
    Views server (Steady m.lost) (Buffered.newConnect C fd peer m)
      (C.base.newConnect fd peer m.server) := by
  have hsync : Sync
      { m with
        server := m.server.connected fd
        pread := update m.pread (m.server.connected fd).maxConnectId Buffer.new
        pwrite := update m.pwrite (m.server.connected fd).maxConnectId Buffer.new } := by
    refine ⟨?_, ?_, ?_, ?_⟩
    · intro b
      simp only [Function.update_apply]
      split
      · exact Buffer.wf_new
      · exact h.pread b
    · intro b
      simp only [Function.update_apply]
      split
      · exact Buffer.fits_new
      · exact h.pwrite b
    · intro b
      simp only [TcpServer.connected_heap, TcpServer.connected_maxConnectId,
        Function.update_apply]
      split
      · exact readable_new.symm
      · exact h.preadBuf b
    · intro b
      simp only [TcpServer.connected_heap, TcpServer.connected_maxConnectId,
        Function.update_apply]
      split
      · exact readable_new.symm
      · exact h.pwriteBuf b
  simp only [Buffered.newConnect, Buffered.lift, hconnects, TcpServer.newConnect_eq]
  split
  · split
    · exact views_error _
    · exact ⟨rfl, hsync, rfl⟩
  · exact views_error _

/-! ### Good states -/

/-- What holds between two methods. -/
structure Good (A : ε → Nat → Prop) (m : Buffered ε) : Prop where
  sync : m.Sync
  inv : Inv A none m.server

theorem good_bind (fd : Nat) (ext : ε) : Good A (bind fd ext) :=
  ⟨sync_bind fd ext, Inv.bind fd ext⟩

theorem Sync.lift_good (h : m.Sync) (hf : Aside f) (hinv : Ensures (f m.server) (Inv A none) E) :
    Ensures (m.lift f) (Good A) E :=
  ((h.lift_views hf).ensures hinv).mono (fun _ hm => ⟨hm.2.sync, hm.1⟩) fun _ => id

/-- `TcpStream::send`, to a connection in `streams`. -/
theorem Good.send (h : Good A m) (ha : a ∈ m.server.streams) (hA : A m.server.ext a)
    (hE : ∀ trace, E ⟨.bufferWrite, trace⟩) (alloc : Buffered ε → Nat → UInt8) (p : Bytes) :
    Ensures (BufferedTcpStream.send alloc a p m) (Good A) E := by
  have hwrite := Buffer.fits_writeString (h.sync.pwrite a) p (alloc m)
  simp only [BufferedTcpStream.send]
  cases hpbuf : (m.pwrite a).writeString p (alloc m) with
  | error x => exact hE _
  | ok pbuf =>
    obtain ⟨hfits, hsize⟩ := hwrite.of_ok hpbuf
    have hput := h.sync.account (m.pwrite a) p pbuf
    refine (hput.setPwrite hfits a).lift_good (aside_enableWrite a) ?_
    refine h.inv.enableWrite ha hA (f := fun _ => pbuf.readable) fun hne hnil => hne ?_
    apply List.eq_nil_of_length_eq_zero
    have hempty := congrArg List.length hnil
    rw [Buffer.length_readable hfits.wf, List.length_nil] at hempty
    rw [h.sync.pwriteBuf, Buffer.length_readable (h.sync.pwrite a).wf]
    omega

/-- `TcpStream::send` fails only where the buffer does. -/
theorem Good.send_ok (h : Good A m) (ha : a ∈ m.server.streams) {p : Bytes} {pbuf : Buffer}
    {alloc : Buffered ε → Nat → UInt8} (hpbuf : (m.pwrite a).writeString p (alloc m) = .ok pbuf) :
    ∃ m', BufferedTcpStream.send alloc a p m = .ok m' ∧ m'.pwrite = update m.pwrite a pbuf := by
  have henable := h.inv.enableWrite_eq ha fun _ => pbuf.readable
  simp only [BufferedTcpStream.send, hpbuf, Buffered.lift, Buffered.setPwrite, Buffered.account,
    henable]
  exact ⟨_, rfl, rfl⟩

/-- **What is sent is queued**, behind what is queued already and for no other connection,
exactly if the buffer takes so many bytes. -/
theorem Good.send_iff (h : Good A m) (ha : a ∈ m.server.streams)
    (alloc : Buffered ε → Nat → UInt8) (p : Bytes) :
    (∃ m', BufferedTcpStream.send alloc a p m = .ok m' ∧
      ∀ b, (m'.pwrite b).readable = (m.pwrite b).readable ++ if b = a then p else []) ↔
    (m.pwrite a).Takes p.length := by
  rw [← Buffer.writeString_iff (h.sync.pwrite a) p (alloc m)]
  constructor
  · rintro ⟨m', hm', hreadable⟩
    cases hpbuf : (m.pwrite a).writeString p (alloc m) with
    | error x =>
      simp only [BufferedTcpStream.send, hpbuf] at hm'
      cases hm'
    | ok pbuf =>
      obtain ⟨m'', hm'', hpwrite⟩ := h.send_ok ha hpbuf
      obtain rfl := Except.ok.inj (hm'.symm.trans hm'')
      have hself := hreadable a
      rw [hpwrite, Function.update_self, if_pos rfl] at hself
      exact ⟨pbuf, rfl, hself⟩
  · rintro ⟨pbuf, hpbuf, hreadable⟩
    obtain ⟨m', hm', hpwrite⟩ := h.send_ok ha hpbuf
    refine ⟨m', hm', ?_⟩
    intro b
    rw [hpwrite, Function.update_apply]
    split
    · rename_i hb
      rw [hb]
      exact hreadable
    · rw [List.append_nil]

section Script

variable {closeConnect : Nat → Method ε} (hcc : Closes A E closeConnect)
  (haside : ∀ a, Aside (closeConnect a)) (hE : ∀ trace, E ⟨.bufferWrite, trace⟩)
  (alloc : Buffered ε → Nat → UInt8)

include hcc haside hE

theorem Good.perform (h : Good A m) (act : Action) :
    Ensures (perform alloc closeConnect m act) (Good A) E := by
  cases act with
  | send b p =>
    simp only [Buffered.perform]
    split
    · rename_i hb
      exact h.send hb.2 (h.inv.owned b hb.2 (.inr (.inr hb.1))) hE alloc p
    · exact h
  | close b =>
    exact h.sync.lift_good (f := fun w => Action.perform closeConnect w (.close b))
      (aside_performClose haside b) (h.inv.perform hcc (.close b))
  | setReadingLine b value =>
    exact h.sync.lift_good (f := fun w => Action.perform closeConnect w (.setReadingLine b value))
      ⟨fun w => Same.refl w, fun w => Same.refl w⟩ (h.inv.perform hcc (.setReadingLine b value))

theorem Good.performAll (h : Good A m) (acts : List Action) :
    Ensures (exec (Buffered.perform alloc closeConnect) m acts) (Good A) E :=
  exec_ensures (fun _ act hm => hm.perform hcc haside hE alloc act) h acts

end Script

/-! ### Dispatch -/

/-- What a server is, its reads aside: it closes as the base class relies on, and accepts as the
base class does. -/
structure Based (A : ε → Nat → Prop) (E : Crash → Prop) (C : BufferedClass ε) : Prop where
  closes : Closes A E C.base.closeConnect
  aside : ∀ a, Aside (C.base.closeConnect a)
  connects : C.base.newConnect = TcpServer.newConnect
  write : ∀ trace, E ⟨.bufferWrite, trace⟩

/-- What it does on a read keeps the state good, too. -/
structure Sound (A : ε → Nat → Prop) (E : Crash → Prop) (C : BufferedClass ε) : Prop
    extends Based A E C where
  reads : ∀ {m a}, Good A m → a ∈ m.server.streams → Ensures (C.handleRead a m) (Good A) E

variable {C : BufferedClass ε}

/-- The server as the base class sees it: nothing of it reads. -/
theorem Based.respects (hC : Based A E C) :
    Respects A E { C.base with handleRead := fun _ => .ok } where
  closes := hC.closes
  reads h _ := h

theorem Good.received (h : Good A m) (ha : a ∈ m.server.streams) (blocks : List Block) :
    Good A (m.received a blocks) :=
  ⟨h.sync.received a blocks,
    (h.inv.log (o := .handleRead a) fun b =>
      ⟨by simp, by rintro (heq | heq) <;> cases heq; exact ha⟩).modifyRead fun _ => _⟩

theorem Good.handleRead (hC : Sound A E C) (h : Good A m) (ha : a ∈ m.server.streams)
    (d : ReadDispatch) (hA : d.last.ends = true → A m.server.ext a) :
    Ensures (BufferedTcpStream.handleRead C d a m) (Good A) E := by
  have hrecv := h.received ha d.blocks
  rw [handleRead_eq]
  split
  · rename_i hlast
    exact hrecv.sync.lift_good (aside_close hC.aside a)
      ((hrecv.inv.idle _).close hC.closes ha (hA (by simp [hlast, Socket.RecvEnd.ends])))
  · rename_i e hlast
    split
    · rename_i hfatal
      have hends : d.last.ends = true := by simp [hlast, Socket.RecvEnd.ends, hfatal]
      have hlog : Good A ((m.received a d.blocks).log (.recvError a e)) :=
        ⟨hrecv.sync.of_same (.refl _) (.refl _), hrecv.inv.log (by simp)⟩
      exact hlog.sync.lift_good (aside_close hC.aside a)
        ((hlog.inv.idle _).close hC.closes ha (hA hends))
    · exact hC.reads hrecv ha

theorem Good.handleWrite (hC : Based A E C) (h : Good A m) (ha : a ∈ m.server.streams)
    (rets : List Socket.SendRet) :
    Ensures (BufferedTcpStream.handleWrite C rets a m) (Good A) E :=
  ((h.sync.handleWrite_views hC.aside rets a).ensures
    (h.inv.handleWrite hC.respects ha rets)).mono (fun _ hm => ⟨hm.2.sync, hm.1⟩) fun _ => id

theorem Good.handleEvent (hC : Sound A E C) (h : Good A m) (io : BufferedIo)
    (hA : (m.server.heap a).revents.read = true → io.recv.last.ends = true → A m.server.ext a) :
    Ensures (BufferedTcpStream.handleEvent C io a m) (Good A) E := by
  refine Ensures.bind (Q := Good A) ?_ ?_
  · split
    · rename_i hread
      exact h.handleRead hC (h.inv.mem_of_event (.inl hread)) io.recv (hA hread)
    · exact h
  · intro m' h'
    split
    · rename_i hwrite
      exact h'.handleWrite hC.toBased (h'.inv.mem_of_event (.inr hwrite)) io.send
    · exact h'

/-- A connection is accepted. -/
theorem Good.newConnect (hC : Based A E C) (h : Good A m)
    (hE : ∀ c ∈ [Abort.getpeername, .addHandle], E ⟨c, m.server.trace⟩) (fd : Nat) (peer : Bool) :
    Ensures (Buffered.newConnect C fd peer m) (Good A) E := by
  have hviews := h.sync.newConnect_views hC.connects fd peer
  rw [hC.connects] at hviews
  refine (hviews.ensures (h.inv.newConnect hE fd peer)).mono ?_ fun _ => id
  rintro m' ⟨⟨hinv, -⟩, hsteady⟩
  exact ⟨hsteady.sync, hinv⟩

/-- **One step**, whatever the kernel answers. -/
theorem Good.step (hC : Sound always (fun _ => True) C) (alloc : Buffered ε → Nat → UInt8)
    (h : Good always m) (e : Event) :
    Ensures (Buffered.step alloc C m e) (Good always) fun _ => True := by
  cases e with
  | timer actions => exact h.performAll hC.closes hC.aside hC.write alloc actions
  | select fd events io =>
    simp only [Buffered.step, Buffered.doSelect]
    cases hfd : m.server.ploop.handles fd with
    | none => trivial
    | some p =>
      cases p with
      | acceptor =>
        dsimp only
        split
        · unfold BufferedAcceptor.handleRead
          split
          · trivial
          · exact h.newConnect hC.toBased (fun _ _ => trivial) _ _
        · exact h
      | stream a =>
        have ha := (h.inv.handled fd a hfd).1
        have hdispatched : Good always
            { m with server := m.server.modify a fun s => { s with revents := events } } :=
          ⟨h.sync.of_same (same_modify (by exact fun _ => rfl) a)
            (same_modify (by exact fun _ => rfl) a), h.inv.dispatched ha events⟩
        exact hdispatched.handleEvent hC io fun _ _ => trivial

/-- **Every run** keeps the buffers and the server in order. -/
theorem run_good (hC : Sound always (fun _ => True) C) (alloc : Buffered ε → Nat → UInt8)
    (fd : Nat) (ext : ε) (es : List Event) :
    Ensures (exec (Buffered.step alloc C) (bind fd ext) es) (Good always) fun _ => True :=
  exec_ensures (fun _ e h => h.step hC alloc e) (good_bind fd ext) es

end Buffered

/-! ### `MsgServer` -/

namespace BufferedMsgServer

open Buffered (Good Sound)

variable {alloc : Buffered ConnMsgs → Nat → UInt8} {H : Handler} {m : Buffered ConnMsgs} {a : Nat}

theorem good_setMsg (h : Good always m) (a : Nat) (pmsg : Msg) :
    Good always (setMsg a pmsg m) :=
  ⟨h.sync.of_same (.refl _) (.refl _),
    { h.inv with owned := fun _ _ _ => trivial }⟩

theorem good_handleMsg (h : Good always m) :
    Ensures (handleMsg alloc H a m) (Good always) fun _ => True := by
  have hlog : Good always (m.log (.handleMsg a (MsgServer.msg a m.server).prawData)) :=
    ⟨h.sync.of_same (.refl _) (.refl _), h.inv.log (by simp)⟩
  simp only [handleMsg]
  split
  · trivial
  · refine exec_ensures ?_ (good_setMsg hlog a _) _
    intro m' reply h'
    unfold sendMsg
    split
    · rename_i hconn
      exact h'.send hconn trivial (fun _ => trivial) alloc reply.2
    · exact h'

theorem good_handleReadN (h : Good always m) (depth : Nat) :
    Ensures (handleReadN alloc H a depth m) (Good always) fun _ => True := by
  induction depth generalizing m with
  | zero => exact h
  | succ depth ih =>
    have hfill := fillFrom_spec (MsgServer.msg a m.server) (h.sync.pread a)
    simp only [handleReadN]
    split
    · cases hr : fillFrom (MsgServer.msg a m.server) (m.pread a) with
      | error c => trivial
      | ok r =>
        obtain ⟨pmsg, pbuf, complete⟩ := r
        have hread : Good always (m.setPread a pbuf) :=
          ⟨h.sync.setPread (hfill.of_ok hr).1 a, h.inv.modifyRead fun _ => pbuf.readable⟩
        have hstore := good_setMsg hread a pmsg
        dsimp only
        split
        · refine (good_handleMsg hstore).bind ?_
          intro m' h'
          have hclear := good_setMsg h' a (MsgServer.msg a m'.server).clear
          split
          · exact ih hclear
          · exact hclear
        · exact hstore
    · trivial

theorem sound (alloc : Buffered ConnMsgs → Nat → UInt8) (H : Handler) :
    Sound always (fun _ => True) (bufferedMsgServer alloc H) where
  closes := closes_always
  aside := Buffered.aside_closeConnect
  connects := rfl
  reads h _ := good_handleReadN h _
  write _ := trivial

end BufferedMsgServer

/-! ### `HttpServer` -/

namespace BufferedHttpServer

open Buffered (Good Based)
open HttpServer (Handled)

variable {alloc : Buffered HttpHandles → Nat → UInt8} {script : Script} {m : Buffered HttpHandles}
  {a : Nat} {E : Crash → Prop}

theorem based (alloc : Buffered HttpHandles → Nat → UInt8) (script : Script)
    (hE : ∀ trace, E ⟨.bufferWrite, trace⟩) :
    Based Handled E (bufferedHttpServer alloc script) where
  closes := HttpServer.closes_http
  aside := Buffered.aside_http
  connects := rfl
  write := hE

section Handler

variable (hE : ∀ trace, E ⟨.bufferWrite, trace⟩)

include hE

theorem good_callHandler (h : Good Handled m) (o : Obs) (ho : ∀ b, o ≠ .closeConnect b ∧
    (o = .handleRead b ∨ o = .handleWrite b → b ∈ m.server.streams)) :
    Ensures (callHandler alloc script a o m) (Good Handled) E := by
  unfold callHandler
  split
  · have hlog : Good Handled (m.log o) := ⟨h.sync.of_same (.refl _) (.refl _), h.inv.log ho⟩
    exact hlog.performAll HttpServer.closes_http Buffered.aside_http hE alloc _
  · exact h

theorem good_lineLoop (h : Good Handled m) (turns : Nat) :
    Ensures (lineLoop alloc script a turns m) (Good Handled) E := by
  induction turns generalizing m with
  | zero => exact h
  | succ turns ih =>
    simp only [lineLoop]
    cases hidx : findCRLF (m.pread a).readable with
    | none => exact h
    | some idx =>
      have hwf := h.sync.pread a
      have hlt := findCRLF_lt hidx
      rw [Buffer.length_readable hwf] at hlt
      obtain ⟨-, -, hpbuf⟩ := Buffer.readBytes_spec hwf (n := idx + 2) (by omega)
      have hread : Good Handled (m.setPread a ((m.pread a).readBytes (idx + 2)).2) :=
        ⟨h.sync.setPread hpbuf a, h.inv.modifyRead fun _ => _⟩
      exact (good_callHandler hE hread _ (by simp)).bind fun m' h' => ih h'

/-- With something to read, nothing fails but the write buffer. -/
theorem good_handleRead (h : Good Handled m) (ha : a ∈ m.server.streams)
    (hne : (m.pread a).readableSize ≠ 0) :
    Ensures (handleRead alloc script a m) (Good Handled) E := by
  have hhandle : Good Handled (if a ∈ m.server.ext.handles then m
      else { m with server := HttpServer.makeHandle a m.server }) := by
    split
    · exact h
    · exact ⟨h.sync.of_same (.refl _) (.refl _), HttpServer.inv_makeHandle h.inv ha⟩
  have hsize : ((if a ∈ m.server.ext.handles then m
      else { m with server := HttpServer.makeHandle a m.server }).pread a).readableSize ≠ 0 := by
    split
    · exact hne
    · exact hne
  rw [handleRead, if_pos ha]
  generalize (if a ∈ m.server.ext.handles then m
    else { m with server := HttpServer.makeHandle a m.server }) = m' at hhandle hsize
  simp only [httpHandleRead, if_neg hsize]
  split
  · exact good_lineLoop hE hhandle _
  · obtain ⟨-, -, hpbuf⟩ := Buffer.readAllBytes_spec (hhandle.sync.pread a)
    have hread : Good Handled (m'.setPread a (m'.pread a).readAllBytes.2) :=
      ⟨hhandle.sync.setPread hpbuf a, hhandle.inv.modifyRead fun _ => _⟩
    exact good_callHandler hE hread _ (by simp)

/-- A READ dispatch that brings data fails only where the write buffer does. -/
theorem good_readable (alloc : Buffered HttpHandles → Nat → UInt8) (script : Script)
    (h : Good Handled m) (ha : a ∈ m.server.streams) {blocks : List Block}
    (hne : Buffer.bytes blocks ≠ []) :
    Ensures (BufferedTcpStream.handleRead (bufferedHttpServer alloc script)
      ⟨blocks, .error .EAGAIN⟩ a m) (Good Handled) E := by
  have hrecv := h.received ha blocks
  have hsize : ((m.received a blocks).pread a).readableSize ≠ 0 := by
    rw [Buffered.received_pread_self, Buffer.readableSize_recvInto (h.sync.pread a)]
    have hlength := List.length_pos_iff.mpr hne
    omega
  exact good_handleRead hE hrecv ha hsize

end Handler

end BufferedHttpServer

end MixServer.Server
