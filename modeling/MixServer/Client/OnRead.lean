import MixServer.Server.Framing

/-!
`Client::on_read` (`client/connector.cpp`): the reading of length-prefixed
messages on the client's single connection.

`deframing_exact` puts the two readers side by side: on a stream of payloads,
however it is cut and interleaved with other connections, the server's
`handle_msg` calls and the client's `on_msg` calls are the payloads received
completely.
-/

namespace MixServer

open Lib Net Server

/-- The part of `Client` that reading uses: the connection's `pread_buf`, the
message being read, and the `on_msg` calls made so far. -/
structure Client where
  preadBuf : Bytes := []
  pmsg : Msg := {}
  handled : List Bytes := []
deriving DecidableEq, Repr

namespace Client

/-- `Client::on_msg`; `proto` is what `Proto::on_msg` leaves of `praw_data`, or
the assertion that fails in it. -/
def onMsg (proto : Bytes → Except Abort Bytes) (c : Client) : Except Abort Client :=
  if 0 < c.pmsg.len then
    (proto c.pmsg.prawData).map fun praw =>
      { c with pmsg := { c.pmsg with prawData := praw }, handled := c.handled ++ [c.pmsg.prawData] }
  else
    .error .onMsgLen

/-- `Client::on_read`, with a bound on the depth of its recursion. -/
def onReadN (proto : Bytes → Except Abort Bytes) : Nat → Client → Except Abort Client
  | 0, c => .ok c
  | depth + 1, c =>
      match fill c.pmsg c.preadBuf with
      | .error x => .error x
      | .ok (pmsg, pbuf, complete) => do
          let c := { c with pmsg := pmsg, preadBuf := pbuf }
          if complete then
            let c ← c.onMsg proto
            let c := { c with pmsg := c.pmsg.clear }
            if 4 ≤ c.preadBuf.length then onReadN proto depth c else return c
          else
            return c

/-- `Client::on_read`: every recursive call has read at least one byte. -/
def onRead (proto : Bytes → Except Abort Bytes) (c : Client) : Except Abort Client :=
  c.onReadN proto (c.preadBuf.length + 1)

/-- A chunk arrives at the client. -/
def receive (proto : Bytes → Except Abort Bytes) (c : Client) (chunk : Bytes) :
    Except Abort Client :=
  { c with preadBuf := c.preadBuf ++ chunk }.onRead proto

variable {c : Client} (erase : Bytes → Bytes)

/-- One call of `on_read` on a stream without bad length words, when the
handling of a message only erases from `praw_data`. -/
theorem onReadN_spec {depth : Nat} (hm : c.pmsg.Between) (hdepth : c.preadBuf.length < depth)
    (hgood : ¬ BadWord (frames.drain (pend c.pmsg c.preadBuf)).2) :
    ∃ c', c.onReadN (fun praw => .ok (erase praw)) depth = .ok c' ∧
      c'.handled = c.handled ++ (frames.drain (pend c.pmsg c.preadBuf)).1 ∧
      c'.pmsg.Between ∧ pend c'.pmsg c'.preadBuf = (frames.drain (pend c.pmsg c.preadBuf)).2 := by
  induction depth generalizing c with
  | zero => exact absurd hdepth (Nat.not_lt_zero _)
  | succ depth ih =>
    simp only [onReadN]
    cases hnext : frames.next (pend c.pmsg c.preadBuf) with
    | none =>
        rw [frames.drain_of_none hnext] at hgood ⊢
        obtain ⟨pmsg', pbuf', hfill, hbetween, -, hpend⟩ := fill_stops hm hnext hgood
        rw [hfill]
        exact ⟨_, rfl, (List.append_nil _).symm, hbetween, hpend⟩
    | some r =>
        obtain ⟨p, rest⟩ := r
        obtain ⟨pmsg', hfill, rfl, hpos, hlen⟩ := fill_complete hm hnext
        rw [frames.drain_of_some hnext] at hgood ⊢
        rw [hfill]
        simp only [onMsg, hpos, if_true, Except.map, ok_bind]
        split
        · obtain ⟨c', hread, hhandled, hbetween, hpend⟩ := ih
            (c := { preadBuf := rest, pmsg := {}, handled := c.handled ++ [pmsg'.prawData] })
            .idle (by simp only; omega) hgood
          refine ⟨c', hread, ?_, hbetween, hpend⟩
          simpa using hhandled
        · rename_i hlt
          rw [frames.drain_of_none (frames_next_short (not_le.mp hlt))]
          exact ⟨_, rfl, rfl, .idle, rfl⟩

/-- The client has received `seen`: the complete frames have been handled, and
the rest is pending. -/
structure Tracks (seen : Bytes) (c : Client) : Prop where
  handled : c.handled = (frames.drain seen).1
  between : c.pmsg.Between
  rest : pend c.pmsg c.preadBuf = (frames.drain seen).2

theorem receive_spec {seen : Bytes} (h : Tracks seen c) {chunk : Bytes}
    (hgood : ¬ BadWord (frames.drain (seen ++ chunk)).2) :
    ∃ c', c.receive (fun praw => .ok (erase praw)) chunk = .ok c' ∧ Tracks (seen ++ chunk) c' := by
  have hpend : pend c.pmsg (c.preadBuf ++ chunk) = (frames.drain seen).2 ++ chunk := by
    rw [← h.rest]
    exact pend_append _ _ _
  have hdrain := frames.drain_append seen chunk
  rw [← hpend] at hdrain
  obtain ⟨c', hread, hhandled, hbetween, hrest⟩ := onReadN_spec erase
    (c := { c with preadBuf := c.preadBuf ++ chunk }) h.between (Nat.lt_succ_self _)
    (by rwa [hdrain] at hgood)
  refine ⟨c', hread, ?_, hbetween, ?_⟩
  · rw [hhandled, h.handled, hdrain]
  · rw [hrest, hdrain]

theorem receiveAll_spec {payloads : List Bytes}
    (hp : ∀ p ∈ payloads, 1 ≤ p.length ∧ p.length < 2 ^ 31) (chunks : List Bytes) {seen : Bytes}
    (h : Tracks seen c) (hpre : seen ++ chunks.flatten <+: encode payloads) :
    ∃ c', exec (receive fun praw => .ok (erase praw)) c chunks = .ok c' ∧
      Tracks (seen ++ chunks.flatten) c' := by
  induction chunks generalizing c seen with
  | nil => exact ⟨c, rfl, by simpa using h⟩
  | cons chunk chunks ih =>
    rw [List.flatten_cons, ← List.append_assoc] at hpre ⊢
    have hgood := (drain_encode hp ((List.prefix_append _ _).trans hpre)).2
    obtain ⟨c', hr, h'⟩ := receive_spec erase h hgood
    rw [exec_cons_ok hr]
    exact ih h' hpre

end Client

namespace Server.MsgServer

/-- **Deframing is exact.** Connections receive beginnings of streams of
payloads, in any chunks and any interleaving. The run does not abort; the
`handle_msg` calls of a connection are its payloads received completely, in
order; its state is at rest, between frames or inside one; and the client makes
the same calls when the same bytes reach it, in any chunks. -/
theorem deframing_exact {w : TcpServer ConnMsgs} (hw : Fresh w)
    (erase : Nat → Bytes → Bytes) (replies : List Obs → List (Nat × Bytes))
    {payloads : Nat → List Bytes}
    (hp : ∀ a, ∀ p ∈ payloads a, 1 ≤ p.length ∧ p.length < 2 ^ 31) {es : List (Nat × Bytes)}
    (hes : ∀ e ∈ es, e.1 ∈ w.streams) (hpre : ∀ a, received a es <+: encode (payloads a)) :
    ∃ w', exec (readable (msgServer (eraser erase replies))) w es = .ok w' ∧
      ∀ a ∈ w.streams,
        handedMsgs a w'.trace = completed (payloads a) (received a es).length ∧
        Resting (msg a w') (w'.heap a).preadBuf ∧
        ∀ chunks : List Bytes, chunks.flatten = received a es →
          ∃ c, exec (Client.receive fun praw => .ok (erase a praw)) {} chunks = .ok c ∧
            c.handled = handedMsgs a w'.trace := by
  obtain ⟨w', hexec, hstreams, htracks⟩ := run_spec (hw.tracks (eraser erase replies)) hes
    fun a _ => accepts_eraser erase replies (hp a) (hpre a)
  refine ⟨w', hexec, ?_⟩
  intro a ha
  obtain ⟨-, hhanded, -, hrest, -⟩ := htracks.conn a (hstreams ▸ ha)
  rw [List.nil_append] at hhanded
  refine ⟨?_, hrest, ?_⟩
  · rw [hhanded, (drain_encode (hp a) (hpre a)).1]
  · intro chunks hchunks
    have hstart : Client.Tracks [] {} := by
      refine ⟨?_, .idle, ?_⟩ <;> rw [frames_drain_nil]
      rfl
    obtain ⟨c, hc, hct⟩ := Client.receiveAll_spec (erase a) (hp a) chunks hstart
      (by simpa [hchunks] using hpre a)
    exact ⟨c, hc, by rw [hct.handled, hhanded, List.nil_append, hchunks]⟩

/-- Two connections: one payload arrives in pieces around bytes of another. -/
theorem deframing_exact_interleaved :
    ∃ w', exec (readable (msgServer (eraser (fun _ d => d) fun _ => [])))
        (((TcpServer.bind 3 fun _ => none).connected 4).connected 5)
        [(1, [2, 0]), (2, [1, 0, 0, 0, 9, 3]), (1, [0, 0, 7, 8])] = .ok w' ∧
      ∀ a ∈ (((TcpServer.bind 3 fun _ => none).connected 4).connected 5 :
          TcpServer ConnMsgs).streams,
        handedMsgs a w'.trace = completed
          (if a = 1 then [[7, 8]] else if a = 2 then [[9], [1, 2, 3]] else [])
          (received a [(1, [2, 0]), (2, [1, 0, 0, 0, 9, 3]), (1, [0, 0, 7, 8])]).length ∧
        Resting (msg a w') (w'.heap a).preadBuf ∧
        ∀ chunks : List Bytes,
          chunks.flatten = received a [(1, [2, 0]), (2, [1, 0, 0, 0, 9, 3]), (1, [0, 0, 7, 8])] →
          ∃ c, exec (Client.receive fun praw => .ok praw) {} chunks = .ok c ∧
            c.handled = handedMsgs a w'.trace := by
  refine deframing_exact (((fresh_bind 3).connected rfl).connected rfl) (fun _ d => d) _ ?_
    (by decide) ?_
  · intro a p hp
    split at hp
    · simp at hp; subst hp; simp
    · split at hp
      · simp at hp; rcases hp with rfl | rfl <;> simp
      · simp at hp
  · intro a
    by_cases h1 : a = 1
    · subst h1; decide
    · by_cases h2 : a = 2
      · subst h2; decide
      · simp [received, Ne.symm h1, Ne.symm h2]

end Server.MsgServer

end MixServer
