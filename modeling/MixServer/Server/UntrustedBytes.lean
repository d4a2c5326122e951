import MixServer.Server.Framing
import MixServer.Server.ReadMemory

/-!
Bytes of an untrusted client, over the memory of the message server.

`MsgServer::handle_read` makes a `Msg`, and `Proto::on_msg` casts it to a `ProtoMsg`, whose ids
do not lie in it: `read_ids` fails its assertion or stores outside the object
(`isOk_msgHandler`). So no complete frame is survived, and `untrusted_bytes_iff` says which
streams are: those that stop before the end of their first frame. The first length word reaches
`try_write` as it was sent, and the length of what follows decides the rest, so that it does not
matter which bytes `pread_buf` loses.
-/

namespace MixServer.Server

open Lib Net
open Function (update)

/-! ### The object behind a message -/

/-- A member of an object: where it begins, and how many bytes it has. -/
structure Member where
  offset : Nat
  size : Nat

/-- The member lies in an object of `size` bytes. -/
def Member.Inside (f : Member) (size : Nat) : Prop := f.offset + f.size ≤ size

instance (f : Member) (size : Nat) : Decidable (f.Inside size) := Nat.decLe _ _

/-- `sizeof(Msg)`: the pointer to its virtual table, `len`, `msg_reading`, the two pointers of
`praw_data` and `has_write_size`, aligned to eight bytes. -/
def Msg.sizeof : Nat := 40

namespace ProtoMsg

/-- `ProtoMsg::service_id`, behind the last member of `Msg`. -/
def serviceIdAt : Member := ⟨36, 4⟩

/-- `ProtoMsg::command_id`. -/
def commandIdAt : Member := ⟨40, 4⟩

/-- `ProtoMsg::read_ids` on an object of `size` bytes. -/
def readIdsIn (size : Nat) (prawData : Bytes) : Except Abort (Int × Int × Bytes) := do
  let ids ← readIds prawData
  if serviceIdAt.Inside size ∧ commandIdAt.Inside size then return ids else throw .readIdsStore

end ProtoMsg

/-- The handler of the shipped server: `Proto::on_msg` casts the `Msg` that
`MsgServer::handle_read` made, and lets the handler registered for the ids read the rest. -/
def Proto.msgHandler (replies : List Obs → List (Nat × Bytes)) : Handler where
  onMsg _ prawData := (ProtoMsg.readIdsIn Msg.sizeof prawData).map fun ids => ids.2.2
  replies := replies

/-- No message survives it: a short one fails the assertion, any other is stored outside. -/
theorem isOk_msgHandler (replies : List Obs → List (Nat × Bytes)) (a : Nat) (p : Bytes) :
    ((Proto.msgHandler replies).onMsg a p).isOk = false := by
  simp only [Proto.msgHandler, ProtoMsg.readIdsIn, ProtoMsg.readIds]
  split
  · rfl
  · rfl

/-! ### Streams without a complete frame -/

/-- The stream ends before its first frame does, and does not begin with a length word that
announces nothing. -/
def Unfinished (s : Bytes) : Prop := frames.next s = none ∧ ¬ BadWord s

theorem unfinished_iff (s : Bytes) :
    Unfinished s ↔ (4 ≤ s.length → 0 < readInt s ∧ s.length < 4 + (readInt s).toNat) := by
  simp only [Unfinished, frames, BadWord]
  split
  · rename_i hnext
    simp only [reduceCtorEq, false_and, false_iff]
    intro h
    have hlt := (h hnext.1).2
    omega
  · rename_i hnext
    simp only [true_and]
    constructor
    · intro hbad h4
      have hpos : 0 < readInt s := not_le.mp fun hle => hbad ⟨h4, hle⟩
      exact ⟨hpos, not_le.mp fun hle => hnext ⟨h4, hpos, hle⟩⟩
    · rintro h ⟨h4, hle⟩
      exact absurd (h h4).1 (not_lt.mpr hle)

/-- The length word and the length decide. -/
theorem unfinished_congr {s t : Bytes} (hlength : s.length = t.length)
    (hword : s.take 4 = t.take 4) : Unfinished s ↔ Unfinished t := by
  have hint : readInt s = readInt t := by rw [readInt, readInt, hword]
  rw [unfinished_iff, unfinished_iff, hlength, hint]

theorem Unfinished.of_append {s t : Bytes} (h : Unfinished (s ++ t)) : Unfinished s := by
  refine ⟨?_, fun hbad => h.2 (hbad.append t)⟩
  by_contra hnext
  obtain ⟨⟨p, rest⟩, heq⟩ := Option.ne_none_iff_exists'.mp hnext
  have hstable := frames.stable t heq
  rw [h.1] at hstable
  cases hstable

/-- Streams with the same length word and length stay so. -/
theorem take_append_congr {s t : Bytes} (hlength : s.length = t.length)
    (hword : s.take 4 = t.take 4) (zs : Bytes) : (s ++ zs).take 4 = (t ++ zs).take 4 := by
  rw [List.take_append, List.take_append, hlength, hword]

namespace MsgServer

open OnMemory (arrival)

variable {H : Handler} {m : OnMemory ConnMsgs} {a : Nat}

/-- The connections have received the streams `seen`, none of which has a complete frame: each
has the length word in its message, or less than one in its buffer. -/
structure Waiting (seen : Nat → Bytes) (m : OnMemory ConnMsgs) : Prop where
  sync : m.Sync
  inv : Inv always none m.server
  conn : ∀ a ∈ m.server.streams, Unfinished (seen a) ∧ (msg a m.server).Between ∧
    (pending a m.server).length = (seen a).length ∧
    (pending a m.server).take 4 = (seen a).take 4 ∧
    ((msg a m.server).len = 0 → (m.pread a).AtStart)

theorem inv_received (h : Inv always none m.server) (ha : a ∈ m.server.streams)
    (blocks : List Block) : Inv always none (m.received a blocks).server :=
  (h.log (o := .handleRead a) (by simpa using ha)).modifyRead fun _ =>
    ((m.pread a).recvInto blocks).readable

/-- What is pending after a receive loop has the length word and the length of the stream, and
the buffer of a connection without a length word is still read from its start. -/
theorem Waiting.received {seen : Nat → Bytes} (h : Waiting seen m) (ha : a ∈ m.server.streams)
    (blocks : List Block) :
    (pending a (m.received a blocks).server).length = (seen a ++ Buffer.bytes blocks).length ∧
      (pending a (m.received a blocks).server).take 4 =
        (seen a ++ Buffer.bytes blocks).take 4 ∧
      ((msg a m.server).len = 0 → ((m.pread a).recvInto blocks).AtStart) := by
  obtain ⟨hwf, hbuf⟩ := h.sync a
  obtain ⟨-, -, hlength, hword, hstart⟩ := h.conn a ha
  have hmsg : msg a (m.received a blocks).server = msg a m.server := rfl
  have hpread : ((m.received a blocks).server.heap a).preadBuf =
      ((m.pread a).recvInto blocks).readable := by
    rw [OnMemory.received, OnMemory.setPread, TcpServer.modify_heap_self]
  have hsize := Buffer.length_readable (Buffer.wf_recvInto hwf blocks)
  rw [Buffer.readableSize_recvInto hwf, ← Buffer.length_readable hwf] at hsize
  simp only [pending, pend, hmsg, hpread, hbuf] at hlength hword ⊢
  split
  · rename_i hzero
    rw [if_pos hzero] at hlength hword
    obtain ⟨hnext, htake⟩ := Buffer.take_recvInto (hstart hzero) hwf blocks
    refine ⟨?_, ?_, fun _ => hnext⟩
    · rw [hsize, List.length_append, hlength]
    · rw [htake, take_append_congr hlength hword]
  · rename_i hne
    rw [if_neg hne] at hlength hword
    refine ⟨?_, ?_, fun hzero => absurd hzero hne⟩
    · rw [List.length_append, hsize, ← Nat.add_assoc, ← List.length_append, hlength,
        List.length_append]
    · rw [← take_append_congr hlength hword, List.append_assoc, List.append_assoc,
        List.append_assoc, List.take_append_of_le_length (by simp),
        List.take_append_of_le_length (by simp)]

/-- Handling an arrival ends without an assertion failing or a store outside an object, and
leaves alone what any other connection is reading. -/
def Unharmed (H : Handler) (m : OnMemory ConnMsgs) (e : Nat × List Block) : Prop :=
  Ensures (OnMemory.readable (memMsgServer H) m e)
    (fun m' => ∀ b ≠ e.1, m'.server.ext b = m.server.ext b ∧ m'.pread b = m.pread b)
    (fun _ => False)

/-- With less than a length word in the buffer nothing is read. -/
theorem fillFrom_short {pbuf : Buffer} (h : pbuf.readableSize < 4) :
    fillFrom {} pbuf = .ok ({}, pbuf, false) := by
  simp [fillFrom, Msg.getRemainLen, not_le.mpr h]
  rfl

/-- Without a complete frame one call of `fillFrom` keeps what it has, and does not touch a
buffer that holds less than a length word. -/
theorem fillFrom_stops {pmsg : Msg} {pbuf : Buffer} (hm : pmsg.Between) (wf : pbuf.Wf)
    (h : Unfinished (pend pmsg pbuf.readable)) :
    ∃ pmsg' pbuf', fillFrom pmsg pbuf = .ok (pmsg', pbuf', false) ∧ pmsg'.Between ∧ pbuf'.Wf ∧
      pend pmsg' pbuf'.readable = pend pmsg pbuf.readable ∧
      (pmsg'.len = 0 → pmsg.len = 0 ∧ pbuf' = pbuf) := by
  obtain ⟨pmsg', left, hfill, hbetween, hresting, hpend⟩ := fill_stops hm h.1 h.2
  have hspec := fillFrom_spec pmsg wf
  rw [hfill] at hspec
  cases hr : fillFrom pmsg pbuf with
  | error x => cases hspec.of_error hr
  | ok r =>
    obtain ⟨pmsg'', pbuf', complete⟩ := r
    obtain ⟨hwf, heq⟩ := hspec.of_ok hr
    simp only [Except.ok.injEq, Prod.mk.injEq] at heq
    obtain ⟨rfl, rfl, rfl⟩ := heq
    refine ⟨pmsg', pbuf', rfl, hbetween, hwf, hpend, fun hzero => ?_⟩
    have hshort : (pend pmsg pbuf.readable).length < 4 := by
      rw [← hpend, pend, if_pos hzero]
      rcases hresting with ⟨-, hlt⟩ | ⟨hpos, -, -⟩
      · exact hlt
      · omega
    rcases hm.cases_fill pbuf.readable with ⟨rfl, hlt⟩ | ⟨rfl, hbad⟩ |
      ⟨len, praw, rest, -, -, -, -, hbegun⟩
    · rw [Buffer.length_readable wf] at hlt
      rw [fillFrom_short hlt] at hr
      simp only [Except.ok.injEq, Prod.mk.injEq] at hr
      exact ⟨rfl, hr.2.1.symm⟩
    · exact absurd hbad.1 (not_le.mpr hshort)
    · rw [hbegun, List.length_append, length_leBytes] at hshort
      omega

/-- One `handle_read` that completes no frame. -/
theorem handleRead_stops (ha : a ∈ m.server.streams) {pmsg : Msg} {pbuf : Buffer}
    (h : fillFrom (msg a m.server) (m.pread a) = .ok (pmsg, pbuf, false)) :
    MemMsgServer.handleRead H a m = .ok (MemMsgServer.setMsg a pmsg (m.setPread a pbuf)) := by
  simp only [MemMsgServer.handleRead, MemMsgServer.handleReadN, if_pos ha, h]
  rfl

/-- The other connections do not see what is stored for `a`. -/
theorem stored_of_ne {b : Nat} (hb : b ≠ a) (pmsg : Msg) (pbuf : Buffer) (blocks : List Block) :
    let m' := MemMsgServer.setMsg a pmsg ((m.received a blocks).setPread a pbuf)
    m'.server.ext b = m.server.ext b ∧ m'.pread b = m.pread b ∧
      pending b m'.server = pending b m.server := by
  have hext : (MemMsgServer.setMsg a pmsg ((m.received a blocks).setPread a pbuf)).server.ext b =
      m.server.ext b := Function.update_of_ne hb _ _
  refine ⟨hext, ?_, ?_⟩
  · simp only [MemMsgServer.setMsg, OnMemory.setPread, OnMemory.received,
      Function.update_of_ne hb]
  · simp only [pending, msg, hext]
    simp only [MemMsgServer.setMsg, setMsg_heap, OnMemory.setPread, OnMemory.received,
      TcpServer.modify_heap_of_ne _ hb, TcpServer.log_heap]

/-- What is stored for `a` itself. -/
theorem stored_self (h : m.Sync) {pbuf : Buffer} (hwf : pbuf.Wf) (pmsg : Msg)
    (blocks : List Block) :
    let m' := MemMsgServer.setMsg a pmsg ((m.received a blocks).setPread a pbuf)
    msg a m'.server = pmsg ∧ m'.pread a = pbuf ∧ pending a m'.server = pend pmsg pbuf.readable := by
  have hmsg : msg a (MemMsgServer.setMsg a pmsg
      ((m.received a blocks).setPread a pbuf)).server = pmsg := msg_setMsg pmsg
  have hpread : (MemMsgServer.setMsg a pmsg
      ((m.received a blocks).setPread a pbuf)).pread a = pbuf := Function.update_self ..
  have hsync := MemMsgServer.sync_setMsg a pmsg ((h.received a blocks).setPread hwf a)
  refine ⟨hmsg, hpread, ?_⟩
  rw [pending, hmsg, (hsync a).2, hpread]

/-- An arrival that completes no frame is kept. -/
theorem Waiting.readable {seen : Nat → Bytes} (h : Waiting seen m) (ha : a ∈ m.server.streams)
    {blocks : List Block} (hunfinished : Unfinished (seen a ++ Buffer.bytes blocks)) :
    ∃ m', OnMemory.readable (memMsgServer H) m (a, blocks) = .ok m' ∧
      m'.server.streams = m.server.streams ∧
      Waiting (update seen a (seen a ++ Buffer.bytes blocks)) m' ∧
      ∀ b ≠ a, m'.server.ext b = m.server.ext b ∧ m'.pread b = m.pread b := by
  obtain ⟨hlength, hword, hstart⟩ := h.received ha blocks
  have hsync := h.sync.received a blocks
  have hmem : a ∈ (m.received a blocks).server.streams := ha
  have hpend : pending a (m.received a blocks).server =
      pend (msg a m.server) ((m.received a blocks).pread a).readable := by
    rw [pending, (hsync a).2]
    rfl
  have hnone := (unfinished_congr hlength hword).mpr hunfinished
  rw [hpend] at hnone
  obtain ⟨pmsg, pbuf, hfrom, hbetween, hwf, hkept, hidle⟩ :=
    fillFrom_stops (h.conn a ha).2.1 (hsync a).1 hnone
  rw [hpend, ← hkept] at hlength hword
  refine ⟨MemMsgServer.setMsg a pmsg ((m.received a blocks).setPread a pbuf), ?_, rfl, ?_, ?_⟩
  · rw [OnMemory.readable_eq]
    exact handleRead_stops hmem hfrom
  · refine ⟨MemMsgServer.sync_setMsg a pmsg (hsync.setPread hwf a), ?_, ?_⟩
    · have hread := (inv_received h.inv ha blocks).modifyRead (a := a) fun _ => pbuf.readable
      exact { hread with owned := fun _ _ _ => trivial }
    · intro b hb
      by_cases hba : b = a
      · subst hba
        obtain ⟨hmsg, hpread, hpending⟩ := stored_self h.sync hwf pmsg blocks (a := b)
        rw [Function.update_self, hmsg, hpread, hpending]
        refine ⟨hunfinished, hbetween, hlength, hword, fun hzero => ?_⟩
        obtain ⟨hzero', rfl⟩ := hidle hzero
        rw [OnMemory.received_pread_self]
        exact hstart hzero'
      · obtain ⟨hext, hpread, hpending⟩ := stored_of_ne (m := m) hba pmsg pbuf blocks
        rw [Function.update_of_ne hba, hpending, hpread, msg, hext]
        exact h.conn b hb
  · intro b hb
    obtain ⟨hext, hpread, -⟩ := stored_of_ne (m := m) hb pmsg pbuf blocks
    exact ⟨hext, hpread⟩

/-- An arrival that completes a frame, or a length word that announces nothing, ends the run. -/
theorem Waiting.readable_fails (hnever : ∀ a p, (H.onMsg a p).isOk = false)
    {seen : Nat → Bytes} (h : Waiting seen m) (ha : a ∈ m.server.streams) {blocks : List Block}
    (hfinished : ¬ Unfinished (seen a ++ Buffer.bytes blocks)) :
    Ensures (OnMemory.readable (memMsgServer H) m (a, blocks)) (fun _ => False)
      fun _ => True := by
  obtain ⟨hlength, hword, -⟩ := h.received ha blocks
  have hview := (viewsAs_msgServer H).handleRead a (h.sync.received a blocks)
  have hspec := handleRead_spec (H := H) (inv_received h.inv ha blocks) ha (h.conn a ha).2.1
  rw [← unfinished_congr hlength hword] at hfinished
  rw [OnMemory.readable_eq]
  refine (hview.ensures hspec).mono ?_ fun _ _ => trivial
  rintro m' ⟨hdelivered, -⟩
  refine hfinished ?_
  cases hnext : frames.next (pending a (m.received a blocks).server) with
  | none =>
    refine ⟨hnext, fun hbad => hdelivered.good ?_⟩
    rwa [frames.drain_of_none hnext]
  | some r =>
    have hok := hdelivered.accepted r.1 (by
      rw [frames.drain_of_some hnext]
      exact List.mem_cons_self)
    rw [hnever] at hok
    cases hok

theorem Waiting.not_unharmed (hnever : ∀ a p, (H.onMsg a p).isOk = false)
    {seen : Nat → Bytes} (h : Waiting seen m) (ha : a ∈ m.server.streams) {blocks : List Block}
    (hfinished : ¬ Unfinished (seen a ++ Buffer.bytes blocks)) : ¬ Unharmed H m (a, blocks) := by
  intro hunharmed
  have hfails := h.readable_fails hnever ha hfinished
  unfold Unharmed at hunharmed
  cases hr : OnMemory.readable (memMsgServer H) m (a, blocks) with
  | ok m' => exact hfails.of_ok hr
  | error x => exact hunharmed.of_error hr

theorem every_unharmed_iff (hnever : ∀ a p, (H.onMsg a p).isOk = false) {seen : Nat → Bytes}
    (h : Waiting seen m) {es : List (Nat × List Block)} (hes : ∀ e ∈ es, e.1 ∈ m.server.streams) :
    Every (OnMemory.readable (memMsgServer H)) (Unharmed H) m es ↔
      ∀ a ∈ m.server.streams, Unfinished (seen a ++ received a (es.map arrival)) := by
  induction es generalizing m seen with
  | nil => simpa using fun a ha => (h.conn a ha).1
  | cons e es ih =>
    obtain ⟨a, blocks⟩ := e
    have ha : a ∈ m.server.streams := hes (a, blocks) (by simp)
    have hcons : ((a, blocks) :: es).map arrival =
        (a, Buffer.bytes blocks) :: es.map arrival := rfl
    by_cases hunfinished : Unfinished (seen a ++ Buffer.bytes blocks)
    · obtain ⟨m', hr, hstreams, hwaiting, hothers⟩ := h.readable (H := H) ha hunfinished
      rw [every_cons_ok hr, Unharmed, hr, ensures_ok,
        ih hwaiting fun e he => hstreams ▸ hes e (List.mem_cons_of_mem _ he), hstreams, hcons]
      simp only [seen_append]
      exact and_iff_right hothers
    · refine iff_of_false (fun hall => h.not_unharmed hnever ha hunfinished hall.1) fun hall => ?_
      have hfirst := hall a ha
      rw [hcons, ← seen_append, Function.update_self] at hfirst
      exact hunfinished hfirst.of_append

theorem Fresh.waiting {w : TcpServer ConnMsgs} (h : Fresh w) :
    Waiting (fun _ => []) (OnMemory.fresh w) where
  sync := OnMemory.sync_fresh fun a => (h.unread a).2.1
  inv := h.inv
  conn a ha := by
    obtain ⟨hext, hbuf, -⟩ := h.unread a
    have hmsg : msg a (OnMemory.fresh w).server = {} := by
      change (w.ext a).getD {} = {}
      rw [hext]
      rfl
    have hpending : pending a (OnMemory.fresh w).server = [] := by
      rw [pending, hmsg]
      exact hbuf
    rw [hmsg, hpending, unfinished_iff]
    exact ⟨fun h4 => absurd h4 (by simp), .idle, rfl, rfl, fun _ => Buffer.atStart_new⟩

/-- **Untrusted bytes.** Whatever arrives at the connections of a server, in any dispatches and
interleaving: every `handle_read` returns without an assertion failing or a store outside an
object, and leaves the other connections alone, iff no connection receives a complete frame or a
length word that announces nothing. -/
theorem untrusted_bytes_iff {w : TcpServer ConnMsgs} (hw : Fresh w)
    (replies : List Obs → List (Nat × Bytes)) {es : List (Nat × List Block)}
    (hes : ∀ e ∈ es, e.1 ∈ w.streams) :
    Every (OnMemory.readable (memMsgServer (Proto.msgHandler replies)))
        (Unharmed (Proto.msgHandler replies)) (OnMemory.fresh w) es ↔
      ∀ a ∈ w.streams, Unfinished (received a (es.map arrival)) :=
  every_unharmed_iff (isOk_msgHandler replies) hw.waiting hes

/-- The theorem at a server with two connections, one of which announces a
frame of no bytes. -/
theorem untrusted_bytes_iff_zero_length :
    Every (OnMemory.readable (memMsgServer (Proto.msgHandler fun _ => [])))
        (Unharmed (Proto.msgHandler fun _ => []))
        (OnMemory.fresh (((TcpServer.bind 3 fun _ => none).connected 4).connected 5))
        [(2, [([0, 0, 0, 0], fun _ => 0)])] ↔
      ∀ a ∈ (((TcpServer.bind 3 fun _ => none).connected 4).connected 5 :
          TcpServer ConnMsgs).streams,
        Unfinished (received a ([(2, [([0, 0, 0, 0], fun _ => 0)])].map arrival)) :=
  untrusted_bytes_iff (((fresh_bind 3).connected rfl).connected rfl) _ (by decide)

/-- Four zero bytes, as the first that a client sends, end the process. -/
theorem Waiting.zero_word (hnever : ∀ a p, (H.onMsg a p).isOk = false)
    (h : Waiting (fun _ => []) m) (ha : a ∈ m.server.streams) (es : List (Nat × List Block)) :
    ¬ Every (OnMemory.readable (memMsgServer H)) (Unharmed H) m
      ((a, [([0, 0, 0, 0], fun _ => 0)]) :: es) := fun hall =>
  h.not_unharmed hnever ha (fun hunfinished => hunfinished.2 (by decide)) hall.1

/-- They do at the second connection of a server with two. -/
theorem zero_length_aborts :
    ¬ Every (OnMemory.readable (memMsgServer (Proto.msgHandler fun _ => [])))
        (Unharmed (Proto.msgHandler fun _ => []))
        (OnMemory.fresh (((TcpServer.bind 3 fun _ => none).connected 4).connected 5))
        [(2, [([0, 0, 0, 0], fun _ => 0)])] := by
  have hfresh : Fresh (((TcpServer.bind 3 fun _ => none).connected 4).connected 5) :=
    ((fresh_bind 3).connected rfl).connected rfl
  exact hfresh.waiting.zero_word (isOk_msgHandler _) (by decide) []

end MsgServer

end MixServer.Server
