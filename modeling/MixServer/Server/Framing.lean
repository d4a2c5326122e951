import MixServer.Server.MsgServer
import MixServer.Server.Trace

/-!
What `MsgServer::handle_read` hands over.

`handleReadN_spec` describes one call: it hands over the frames that the stream
of its connection has complete and keeps the rest, unless an assertion fails on
the way, and it touches no other connection.
-/

namespace MixServer.Server

open Lib Net
open Function (update)

/-! ### What a connection has been handed -/

/-- The message an entry hands over for connection `a`. -/
def Obs.msgOf (a : Nat) : Obs → Option Bytes
  | .handleMsg b data => if b = a then some data else none
  | _ => none

/-- The data of the `handle_msg` calls made for connection `a`, in order. -/
def handedMsgs (a : Nat) (trace : List Obs) : List Bytes := trace.filterMap (Obs.msgOf a)

@[simp] theorem handedMsgs_append (a : Nat) (t t' : List Obs) :
    handedMsgs a (t ++ t') = handedMsgs a t ++ handedMsgs a t' := List.filterMap_append

theorem handedMsgs_handleMsg (a : Nat) (data : Bytes) :
    handedMsgs a [.handleMsg a data] = [data] := by
  simp [handedMsgs, Obs.msgOf]

theorem handedMsgs_of_ne {a b : Nat} (h : b ≠ a) (data : Bytes) :
    handedMsgs a [.handleMsg b data] = [] := by
  simp [handedMsgs, Obs.msgOf, h]

namespace MsgServer

variable {H : Handler} {w w' : TcpServer ConnMsgs} {a : Nat}

/-- The part of the stream of `a` that has been received and not handed over. -/
def pending (a : Nat) (w : TcpServer ConnMsgs) : Bytes := pend (msg a w) (w.heap a).preadBuf

/-- `w'` comes from `w` by handing over `out` for connection `a`. -/
structure Advanced (a : Nat) (w w' : TcpServer ConnMsgs) (out : List Bytes) : Prop where
  inv : Inv always none w'
  streams : w'.streams = w.streams
  handed : handedMsgs a w'.trace = handedMsgs a w.trace ++ out
  others : ∀ b ≠ a, handedMsgs b w'.trace = handedMsgs b w.trace ∧ w'.ext b = w.ext b ∧
    (w'.heap b).preadBuf = (w.heap b).preadBuf

theorem Advanced.trans {w'' : TcpServer ConnMsgs} {out out' : List Bytes}
    (h : Advanced a w w' out) (h' : Advanced a w' w'' out') : Advanced a w w'' (out ++ out') where
  inv := h'.inv
  streams := h'.streams.trans h.streams
  handed := by rw [h'.handed, h.handed, List.append_assoc]
  others b hb := by
    obtain ⟨h1, h2, h3⟩ := h.others b hb
    obtain ⟨h1', h2', h3'⟩ := h'.others b hb
    exact ⟨h1'.trans h1, h2'.trans h2, h3'.trans h3⟩

/-! ### The small changes -/

@[simp] theorem msg_setMsg (pmsg : Msg) : msg a (setMsg a pmsg w) = pmsg := by
  simp [msg, setMsg]

@[simp] theorem setMsg_heap (pmsg : Msg) : (setMsg a pmsg w).heap = w.heap := rfl

/-- Storing the message and what is left of the buffer hands nothing over. -/
theorem advanced_store (h : Inv always none w) (pmsg : Msg) (pbuf : Bytes) :
    Advanced a w (setMsg a pmsg (w.modify a fun s => { s with preadBuf := pbuf })) [] where
  inv := { h.modifyRead fun _ => pbuf with owned := fun _ _ _ => trivial }
  streams := rfl
  handed := by simp [setMsg]
  others b hb := by
    refine ⟨rfl, ?_, ?_⟩
    · simp [setMsg, hb]
    · simp [TcpServer.modify_heap_of_ne _ hb]

theorem advanced_setMsg (h : Inv always none w) (pmsg : Msg) :
    Advanced a w (setMsg a pmsg w) [] where
  inv := { h with owned := fun _ _ _ => trivial }
  streams := rfl
  handed := by simp [setMsg]
  others b hb := ⟨rfl, by simp [setMsg, hb], rfl⟩

theorem advanced_log (h : Inv always none w) (data : Bytes) :
    Advanced a w (w.log (.handleMsg a data)) [data] where
  inv := h.log fun b => by simp
  streams := rfl
  handed := by simp [handedMsgs_handleMsg]
  others b hb := ⟨by simp [handedMsgs_of_ne hb.symm], rfl, rfl⟩

/-- Replies change nothing that reading depends on. -/
structure SameReads (w w' : TcpServer ConnMsgs) : Prop where
  inv : Inv always none w'
  streams : w'.streams = w.streams
  trace : w'.trace = w.trace
  ext : w'.ext = w.ext
  preadBuf : ∀ b, (w'.heap b).preadBuf = (w.heap b).preadBuf

theorem sendMsg_spec {E : Crash → Prop} (h : SameReads w w') (reply : Nat × Bytes) :
    Ensures (sendMsg w' reply) (SameReads w) E := by
  unfold sendMsg
  split
  · rename_i hmem
    have hinv := h.inv.send (E := E) hmem trivial reply.2
    rw [h.inv.send_eq hmem, ensures_ok] at hinv ⊢
    refine ⟨hinv, h.streams, h.trace, h.ext, ?_⟩
    intro b
    rw [TcpServer.modify_heap]
    split
    · rename_i hb
      subst hb
      simpa using h.preadBuf reply.1
    · rename_i hb
      simpa [TcpServer.setEvents_heap, hb] using h.preadBuf b
  · exact h

theorem sendAll_spec {E : Crash → Prop} (h : Inv always none w) (replies : List (Nat × Bytes)) :
    Ensures (exec sendMsg w replies) (SameReads w) E :=
  exec_ensures (fun _ reply hw => sendMsg_spec hw reply) ⟨h, rfl, rfl, rfl, fun _ => rfl⟩ replies

theorem handleMsg_spec (h : Inv always none w) :
    Ensures (handleMsg H a w)
      (fun w' => Advanced a w w' [(msg a w).prawData] ∧
        (w'.heap a).preadBuf = (w.heap a).preadBuf ∧ (H.onMsg a (msg a w).prawData).isOk = true)
      (fun x => H.onMsg a (msg a w).prawData = .error x.cause ∧
        handedMsgs a x.trace = handedMsgs a w.trace ++ [(msg a w).prawData]) := by
  have hlog := advanced_log (a := a) h (msg a w).prawData
  have hmsg : msg a (w.log (.handleMsg a (msg a w).prawData)) = msg a w := rfl
  simp only [handleMsg]
  rw [hmsg]
  cases hon : H.onMsg a (msg a w).prawData with
  | error c => exact ⟨rfl, hlog.handed⟩
  | ok praw =>
      have hset := hlog.trans (advanced_setMsg hlog.inv { msg a w with prawData := praw })
      refine (sendAll_spec hset.inv _).mono (fun w' hsame => ⟨?_, ?_, rfl⟩) (fun _ => id)
      · refine ⟨hsame.inv, hsame.streams.trans hset.streams, ?_, ?_⟩
        · rw [hsame.trace]
          simpa using hset.handed
        · intro b hb
          obtain ⟨h1, h2, h3⟩ := hset.others b hb
          rw [hsame.trace, hsame.ext, hsame.preadBuf]
          exact ⟨h1, h2, h3⟩
      · rw [hsame.preadBuf]
        rfl

/-! ### One `handle_read` -/

/-- The frames that `handle_msg` is called with: none after one whose handling
fails an assertion. -/
def handedOver (H : Handler) (a : Nat) : List Bytes → List Bytes
  | [] => []
  | p :: ps => p :: (if (H.onMsg a p).isOk then handedOver H a ps else [])

theorem handedOver_of_accepted {ps : List Bytes} (h : ∀ p ∈ ps, (H.onMsg a p).isOk = true) :
    handedOver H a ps = ps := by
  induction ps with
  | nil => rfl
  | cons p ps ih =>
    rw [handedOver, if_pos (h p List.mem_cons_self), ih fun q hq => h q (List.mem_cons_of_mem p hq)]

theorem handedOver_append (ps qs : List Bytes) :
    handedOver H a (ps ++ qs) = handedOver H a ps ++
      if ∀ p ∈ ps, (H.onMsg a p).isOk = true then handedOver H a qs else [] := by
  induction ps with
  | nil => simp [handedOver]
  | cons p ps ih =>
    rw [List.cons_append, handedOver, handedOver, ih]
    by_cases hp : (H.onMsg a p).isOk = true
    · simp [hp]
    · simp [hp]

/-- `handle_read` returned: the complete frames of the pending stream have been
handed over, each accepted, and the rest of the stream is kept. -/
structure Delivered (H : Handler) (a : Nat) (w w' : TcpServer ConnMsgs) : Prop where
  advanced : Advanced a w w' (frames.drain (pending a w)).1
  accepted : ∀ p ∈ (frames.drain (pending a w)).1, (H.onMsg a p).isOk = true
  good : ¬ BadWord (frames.drain (pending a w)).2
  between : (msg a w').Between
  resting : Resting (msg a w') (w'.heap a).preadBuf
  rest : pending a w' = (frames.drain (pending a w)).2

/-- `handle_read` aborted, at a length word that announces nothing or in the
handling of a frame, having handed over the frames before that. -/
structure Aborted (H : Handler) (a : Nat) (w : TcpServer ConnMsgs) (x : Crash) : Prop where
  cause : (x.cause = .tryWrite ∧ BadWord (frames.drain (pending a w)).2) ∨
    ∃ p ∈ (frames.drain (pending a w)).1, H.onMsg a p = .error x.cause
  handed : handedMsgs a x.trace =
    handedMsgs a w.trace ++ handedOver H a (frames.drain (pending a w)).1

/-- One frame was handed over before the rest of the call. -/
theorem Delivered.cons {w'' : TcpServer ConnMsgs} {p : Bytes} (h : Delivered H a w' w'')
    (hadv : Advanced a w w' [p]) (hok : (H.onMsg a p).isOk = true)
    (hnext : frames.next (pending a w) = some (p, pending a w')) : Delivered H a w w'' := by
  refine ⟨?_, ?_, ?_, h.between, h.resting, ?_⟩ <;> rw [frames.drain_of_some hnext]
  · exact hadv.trans h.advanced
  · simpa using ⟨hok, h.accepted⟩
  · exact h.good
  · exact h.rest

theorem Aborted.cons {x : Crash} {p : Bytes} (h : Aborted H a w' x)
    (hadv : Advanced a w w' [p]) (hok : (H.onMsg a p).isOk = true)
    (hnext : frames.next (pending a w) = some (p, pending a w')) : Aborted H a w x := by
  refine ⟨?_, ?_⟩ <;> rw [frames.drain_of_some hnext]
  · rcases h.cause with hbad | ⟨q, hq, hfail⟩
    · exact .inl hbad
    · exact .inr ⟨q, List.mem_cons_of_mem p hq, hfail⟩
  · rw [h.handed, hadv.handed, handedOver, if_pos hok, List.append_assoc, List.singleton_append]

/-- With less than a length word left, `handle_read` has nothing to do. -/
theorem delivered_short (h : Inv always none w) (hm : msg a w = {})
    (hlt : (w.heap a).preadBuf.length < 4) : Delivered H a w w := by
  have hpend : pending a w = (w.heap a).preadBuf := by rw [pending, hm, pend_idle]
  have hdrain := frames.drain_of_none (frames_next_short (hpend.symm ▸ hlt))
  refine ⟨?_, ?_, ?_, hm ▸ .idle, .inl ⟨by rw [hm], hlt⟩, ?_⟩ <;> rw [hdrain]
  · exact ⟨h, rfl, (List.append_nil _).symm, fun _ _ => ⟨rfl, rfl, rfl⟩⟩
  · simp
  · exact fun hb => absurd (hpend ▸ hb.1) (not_le.mpr hlt)

/-- Without a complete frame `handle_read` keeps what it has. -/
theorem delivered_stops (h : Inv always none w) (hm : (msg a w).Between)
    (hnext : frames.next (pending a w) = none) (hbad : ¬ BadWord (pending a w)) :
    ∃ pmsg' pbuf', fill (msg a w) (w.heap a).preadBuf = .ok (pmsg', pbuf', false) ∧
      Delivered H a w (setMsg a pmsg' (w.modify a fun s => { s with preadBuf := pbuf' })) := by
  obtain ⟨pmsg', pbuf', hfill, hbetween, hrest, hpend⟩ := fill_stops hm hnext hbad
  have hdrain := frames.drain_of_none hnext
  refine ⟨pmsg', pbuf', hfill, ?_, ?_, ?_, ?_, ?_, ?_⟩
  · rw [hdrain]
    exact advanced_store h pmsg' pbuf'
  · rw [hdrain]
    simp
  · rwa [hdrain]
  · simpa using hbetween
  · simpa using hrest
  · rw [hdrain]
    simpa [pending] using hpend

/-- **One `handle_read`.** It hands over the complete frames and keeps the rest,
or aborts on the way. -/
theorem handleReadN_spec {depth : Nat} (h : Inv always none w) (ha : a ∈ w.streams)
    (hm : (msg a w).Between) (hdepth : (w.heap a).preadBuf.length < depth) :
    Ensures (handleReadN H a depth w) (Delivered H a w) (Aborted H a w) := by
  induction depth generalizing w with
  | zero => exact absurd hdepth (Nat.not_lt_zero _)
  | succ depth ih =>
    simp only [handleReadN, if_pos ha]
    cases hnext : frames.next (pending a w) with
    | none =>
        by_cases hbad : BadWord (pending a w)
        · -- the assertion of `try_write`
          rw [fill_bad hm hbad]
          refine ⟨.inl ⟨rfl, ?_⟩, ?_⟩ <;> rw [frames.drain_of_none hnext]
          · exact hbad
          · exact (List.append_nil _).symm
        · obtain ⟨pmsg', pbuf', hfill, hdelivered⟩ := delivered_stops (H := H) h hm hnext hbad
          rw [hfill]
          exact hdelivered
    | some r =>
        obtain ⟨p, rest⟩ := r
        obtain ⟨pmsg', hfill, rfl, -, hlen⟩ := fill_complete hm hnext
        rw [hfill]
        have hstore := advanced_store (a := a) h pmsg' rest
        refine Ensures.bind ((handleMsg_spec hstore.inv).mono (fun _ => id) fun x hx => ?_) ?_
        · obtain ⟨hfail, hhanded⟩ := hx
          rw [msg_setMsg] at hfail hhanded
          refine ⟨.inr ⟨pmsg'.prawData, ?_, hfail⟩, ?_⟩ <;> rw [frames.drain_of_some hnext]
          · exact List.mem_cons_self
          · rw [hhanded, hstore.handed, handedOver, hfail, List.append_nil]
            rfl
        rintro w2 ⟨hadv, hbuf, hok⟩
        rw [msg_setMsg] at hadv hok
        -- the message is cleared, and what is left of the buffer is the stream
        have hclear := (hstore.trans hadv).trans
          (advanced_setMsg (a := a) hadv.inv (msg a w2).clear)
        have hrest : ((setMsg a (msg a w2).clear w2).heap a).preadBuf = rest := by
          simpa using hbuf
        have hpend : pending a (setMsg a (msg a w2).clear w2) = rest := by
          rw [pending, msg_setMsg, hrest]
          rfl
        rw [← hpend] at hnext
        split
        · refine (ih hclear.inv ?_ ?_ ?_).mono (fun w' hd => hd.cons hclear hok hnext)
            (fun x hx => hx.cons hclear hok hnext)
          · rw [hclear.streams]
            exact ha
          · rw [msg_setMsg]
            exact .idle
          · rw [hrest]
            omega
        · rename_i hlt
          exact (delivered_short hclear.inv (msg_setMsg _) (not_le.mp hlt)).cons hclear hok hnext

theorem handleRead_spec (h : Inv always none w) (ha : a ∈ w.streams)
    (hm : (msg a w).Between) : Ensures (handleRead H a w) (Delivered H a w) (Aborted H a w) :=
  handleReadN_spec h ha hm (Nat.lt_succ_self _)

end MsgServer

/-! ### Data arriving -/

/-- All bytes that arrived for connection `a`. -/
def received (a : Nat) (es : List (Nat × Bytes)) : Bytes :=
  (es.map fun e => if e.1 = a then e.2 else []).flatten

@[simp] theorem received_nil (a : Nat) : received a [] = [] := rfl

theorem received_cons (a : Nat) (e : Nat × Bytes) (es : List (Nat × Bytes)) :
    received a (e :: es) = (if e.1 = a then e.2 else []) ++ received a es := rfl

namespace MsgServer

variable {H : Handler} {w w' : TcpServer ConnMsgs} {a : Nat}

/-- The stream `s` can be handed over without an assertion failing: it holds no
length word that announces nothing, and every complete frame is accepted. -/
def Accepts (H : Handler) (a : Nat) (s : Bytes) : Prop :=
  ¬ BadWord (frames.drain s).2 ∧ ∀ p ∈ (frames.drain s).1, (H.onMsg a p).isOk = true

/-- What is wrong with a stream stays wrong when more arrives. -/
theorem Accepts.of_append {s t : Bytes} (h : Accepts H a (s ++ t)) : Accepts H a s := by
  obtain ⟨hgood, hall⟩ := h
  rw [frames.drain_append] at hgood hall
  refine ⟨fun hbad => hgood ?_, fun p hp => hall p (List.mem_append_left _ hp)⟩
  rw [frames.drain_of_none (hbad.append t).next_eq_none]
  exact hbad.append t

/-- The connections have received the streams `seen`: the complete frames have
been handed over, and the rest is pending. -/
structure Tracks (H : Handler) (seen : Nat → Bytes) (w : TcpServer ConnMsgs) : Prop where
  inv : Inv always none w
  conn : ∀ a ∈ w.streams, Accepts H a (seen a) ∧
    handedMsgs a w.trace = (frames.drain (seen a)).1 ∧ (msg a w).Between ∧
    Resting (msg a w) (w.heap a).preadBuf ∧ pending a w = (frames.drain (seen a)).2

theorem pending_received (chunk : Bytes) :
    pending a (w.received a chunk) = pending a w ++ chunk := by
  have hmsg : msg a (w.received a chunk) = msg a w := rfl
  rw [pending, hmsg, TcpServer.received_heap_self]
  simp only [pending, pend]
  split
  · rfl
  · simp only [List.append_assoc]

/-- The server ended at stream `s` of the connection, having handed over its
frames as far as they are accepted. -/
structure Refused (H : Handler) (a : Nat) (s : Bytes) (x : Crash) : Prop where
  unaccepted : ¬ Accepts H a s
  handed : handedMsgs a x.trace = handedOver H a (frames.drain s).1

/-- One arrival: either the frames it completes are handed over and every other
connection is left alone, or its own stream cannot be accepted. -/
theorem readable_spec {seen : Nat → Bytes} (h : Tracks H seen w) (ha : a ∈ w.streams)
    (chunk : Bytes) :
    Ensures (readable (msgServer H) w (a, chunk))
      (fun w' => w'.streams = w.streams ∧ Tracks H (update seen a (seen a ++ chunk)) w' ∧
        ∀ b ≠ a, w'.ext b = w.ext b ∧ (w'.heap b).preadBuf = (w.heap b).preadBuf)
      (Refused H a (seen a ++ chunk)) := by
  obtain ⟨haccepts, hhanded, hbetween, -, hpend⟩ := h.conn a ha
  have hrecv := h.inv.received ha chunk
  have hpend' : pending a (w.received a chunk) = (frames.drain (seen a)).2 ++ chunk := by
    rw [pending_received, hpend]
  have hdrain := frames.drain_append (seen a) chunk
  rw [← hpend'] at hdrain
  have hlog : ∀ b, handedMsgs b (w.received a chunk).trace = handedMsgs b w.trace := by
    intro b
    rw [TcpServer.received_trace, handedMsgs_append]
    exact List.append_nil _
  rw [readable_eq]
  refine (handleRead_spec hrecv ha hbetween).mono ?_ ?_
  · intro w' hd
    have hstreams : w'.streams = w.streams := hd.advanced.streams
    have hothers : ∀ b ≠ a, handedMsgs b w'.trace = handedMsgs b w.trace ∧ w'.ext b = w.ext b ∧
        (w'.heap b).preadBuf = (w.heap b).preadBuf := by
      intro b hb
      obtain ⟨h1, h2, h3⟩ := hd.advanced.others b hb
      refine ⟨h1.trans (hlog b), h2, h3.trans ?_⟩
      simp [TcpServer.received, TcpServer.modify_heap_of_ne _ hb]
    refine ⟨hstreams, ⟨hd.advanced.inv, fun b hb => ?_⟩, fun b hb => (hothers b hb).2⟩
    by_cases hba : b = a
    · subst hba
      rw [Function.update_self, Accepts, hdrain]
      refine ⟨⟨hd.good, fun p hp => ?_⟩, ?_, hd.between, hd.resting, hd.rest⟩
      · rcases List.mem_append.mp hp with hp | hp
        · exact haccepts.2 p hp
        · exact hd.accepted p hp
      · rw [hd.advanced.handed, hlog, hhanded]
    · rw [Function.update_of_ne hba]
      obtain ⟨h1, h2, h3⟩ := hothers b hba
      have hmsg : msg b w' = msg b w := by rw [msg, msg, h2]
      have hpending : pending b w' = pending b w := by rw [pending, pending, hmsg, h3]
      rw [h1, hmsg, h3, hpending]
      exact h.conn b (hstreams ▸ hb)
  · intro x hx
    refine ⟨?_, ?_⟩
    · rintro ⟨hgood, hall⟩
      rw [hdrain] at hgood hall
      rcases hx.cause with ⟨-, hbad⟩ | ⟨p, hp, hfail⟩
      · exact hgood hbad
      · have := hall p (List.mem_append_right _ hp)
        rw [hfail] at this
        cases this
    · rw [hx.handed, hlog, hhanded, hdrain, handedOver_append, if_pos haccepts.2,
        handedOver_of_accepted haccepts.2]

/-- Connections may have been accepted, but nothing has been received. -/
structure Fresh (w : TcpServer ConnMsgs) : Prop where
  inv : Inv always none w
  unread : ∀ a, w.ext a = none ∧ (w.heap a).preadBuf = [] ∧ handedMsgs a w.trace = []

theorem fresh_bind (fd : Nat) : Fresh (TcpServer.bind fd fun _ => none) where
  inv := Inv.bind fd _
  unread _ := ⟨rfl, rfl, rfl⟩

theorem Fresh.connected (h : Fresh w) {fd : Nat} (hfd : (w.ploop.select_ fd).isSome = false) :
    Fresh (w.connected fd) where
  inv := h.inv.connected hfd
  unread a := by
    obtain ⟨hext, hbuf, hhanded⟩ := h.unread a
    refine ⟨hext, ?_, hhanded⟩
    rw [TcpServer.connected_heap, Function.update_apply]
    split
    · rfl
    · exact hbuf

theorem Fresh.tracks (h : Fresh w) (H : Handler) : Tracks H (fun _ => []) w where
  inv := h.inv
  conn a ha := by
    obtain ⟨hext, hbuf, hhanded⟩ := h.unread a
    have hmsg : msg a w = {} := by rw [msg, hext]; rfl
    rw [hmsg, hbuf, hhanded, Accepts, pending, hmsg, hbuf, frames_drain_nil]
    exact ⟨⟨fun hb => by simpa using hb.1, by simp⟩, rfl, .idle, .inl ⟨rfl, by simp⟩, rfl⟩

/-- What has been seen, then one chunk, then the rest. -/
theorem seen_append (seen : Nat → Bytes) (a : Nat) (chunk : Bytes) (es : List (Nat × Bytes))
    (b : Nat) : update seen a (seen a ++ chunk) b ++ received b es =
      seen b ++ received b ((a, chunk) :: es) := by
  rw [received_cons, ← List.append_assoc]
  by_cases hba : b = a
  · subst hba
    simp
  · simp [hba, Ne.symm hba]

theorem accepts_of_cons {seen : Nat → Bytes} {chunk : Bytes} {es : List (Nat × Bytes)}
    (hacc : Accepts H a (seen a ++ received a ((a, chunk) :: es))) :
    Accepts H a (seen a ++ chunk) := by
  rw [← seen_append, Function.update_self] at hacc
  exact hacc.of_append

/-- A run over streams that can be accepted hands over their frames. -/
theorem run_spec {seen : Nat → Bytes} (h : Tracks H seen w) {es : List (Nat × Bytes)}
    (hes : ∀ e ∈ es, e.1 ∈ w.streams)
    (hacc : ∀ a ∈ w.streams, Accepts H a (seen a ++ received a es)) :
    ∃ w', exec (readable (msgServer H)) w es = .ok w' ∧ w'.streams = w.streams ∧
      Tracks H (fun a => seen a ++ received a es) w' := by
  induction es generalizing w seen with
  | nil => exact ⟨w, rfl, rfl, by simpa using h⟩
  | cons e es ih =>
    obtain ⟨a, chunk⟩ := e
    have ha : a ∈ w.streams := hes (a, chunk) (by simp)
    have hstep := readable_spec h ha chunk
    cases hr : readable (msgServer H) w (a, chunk) with
    | error x =>
      exact absurd (accepts_of_cons (hacc a ha)) (hstep.of_error hr).unaccepted
    | ok w' =>
      obtain ⟨hstreams, htracks, -⟩ := hstep.of_ok hr
      rw [exec_cons_ok hr]
      obtain ⟨w'', hexec, hs, ht⟩ := ih htracks
        (fun e he => hstreams ▸ hes e (List.mem_cons_of_mem _ he))
        (fun b hb => seen_append seen a chunk es b ▸ hacc b (hstreams ▸ hb))
      exact ⟨w'', hexec, hs.trans hstreams, by simpa only [seen_append] using ht⟩

/-! ### Deframing -/

/-- A handler whose `on_msg` only erases from `praw_data`. -/
def eraser (erase : Nat → Bytes → Bytes) (replies : List Obs → List (Nat × Bytes)) : Handler where
  onMsg a prawData := .ok (erase a prawData)
  replies := replies

theorem accepts_eraser (erase : Nat → Bytes → Bytes) (replies : List Obs → List (Nat × Bytes))
    {payloads : List Bytes} (hp : ∀ p ∈ payloads, 1 ≤ p.length ∧ p.length < 2 ^ 31) {s : Bytes}
    (hs : s <+: encode payloads) : Accepts (eraser erase replies) a s :=
  ⟨(drain_encode hp hs).2, fun _ _ => rfl⟩

end MsgServer

end MixServer.Server
