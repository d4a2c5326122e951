import MixServer.Server.Framing
import MixServer.Server.ReadMemory

/-!
The end of a peer's stream.

`Socket::recv` appends what it gets and returns only its last code, so
`TcpStream::handle_read` closes without looking at data that came in the same
loop as the EOF. `end_of_stream_iff` says what that costs: exactly the frames and
lines that this last data completes.
-/

namespace MixServer.Server

open Lib Net
open Function (update)

variable {ε : Type}

/-- One dispatch: the `recv` loop gets `last` and then the EOF. -/
def endsTogether (C : ServerClass ε) (a : Nat) (last : List Bytes) : Method ε :=
  TcpStream.handleRead C ⟨last, .eof⟩ a

/-- Two dispatches: the first gets the data, the second the EOF, if the
connection is still there. -/
def endsLater (C : ServerClass ε) (a : Nat) (last : List Bytes) : Method ε := fun w => do
  let w ← readable C w (a, last.flatten)
  if a ∈ w.streams then TcpStream.handleRead C ⟨[], .eof⟩ a w else return w

/-- The peer of connection `a` sends `chunks`, one a dispatch, and then ends. -/
def peerRun (C : ServerClass ε) (a : Nat) (chunks : List Bytes) (ends : Method ε) : Method ε :=
  fun w => do
    let w ← exec (readable C) w (chunks.map fun c => (a, c))
    ends w

/-- The dispatch that sees the EOF only closes. -/
theorem adds_eof {C : ServerClass ε} {P : Obs → Prop} {a : Nat}
    (h : ∀ b, Appends P (C.closeConnect b)) (ha : P (.handleRead a)) (last : List Bytes)
    (w : TcpServer ε) : Adds P w.trace (endsTogether C a last w) := by
  have hrecv : Extends P w.trace (w.received a last.flatten).trace := .single ha w.trace
  rw [endsTogether, TcpStream.handleRead_eq]
  exact hrecv.adds (appends_close h a _)

/-! ### Messages -/

namespace MsgServer

variable {H : Handler} {w : TcpServer ConnMsgs} {a : Nat}

theorem handedOver_isPrefix (ps : List Bytes) : handedOver H a ps <+: ps := by
  induction ps with
  | nil => exact List.prefix_rfl
  | cons p ps ih =>
    rw [handedOver, List.cons_prefix_cons]
    refine ⟨rfl, ?_⟩
    split
    · exact ih
    · exact List.nil_prefix

/-- All frames are handed over iff none but the last fails an assertion. -/
theorem handedOver_eq_self_iff (ps : List Bytes) :
    handedOver H a ps = ps ↔ ∀ p ∈ ps.dropLast, (H.onMsg a p).isOk = true := by
  induction ps with
  | nil => simp [handedOver]
  | cons p ps ih =>
    cases ps with
    | nil => simp [handedOver]
    | cons q ps =>
        rw [handedOver, List.dropLast_cons_of_ne_nil (List.cons_ne_nil q ps), List.forall_mem_cons]
        split
        · rename_i hp
          simp [ih, hp]
        · rename_i hp
          simp [hp]

/-- What a server that has ended handed over does not change with the rest of
the stream. -/
theorem Refused.append {s : Bytes} {x : Crash} (h : Refused H a s x) (t : Bytes) :
    Refused H a (s ++ t) x := by
  refine ⟨fun hacc => h.unaccepted hacc.of_append, ?_⟩
  rw [h.handed, frames.drain_append]
  by_cases hall : ∀ p ∈ (frames.drain s).1, (H.onMsg a p).isOk = true
  · have hbad : BadWord (frames.drain s).2 := by
      by_contra hgood
      exact h.unaccepted ⟨hgood, hall⟩
    rw [frames.drain_of_none (hbad.append t).next_eq_none, List.append_nil]
  · rw [handedOver_append, if_neg hall, List.append_nil]

/-- Data arriving at one connection, chunk by chunk. -/
theorem readable_all_spec {seen : Nat → Bytes} (h : Tracks H seen w) (ha : a ∈ w.streams)
    (chunks : List Bytes) :
    Ensures (exec (readable (msgServer H)) w (chunks.map fun c => (a, c)))
      (fun w' => a ∈ w'.streams ∧ Tracks H (update seen a (seen a ++ chunks.flatten)) w')
      (Refused H a (seen a ++ chunks.flatten)) := by
  induction chunks generalizing w seen with
  | nil => simpa using ⟨ha, h⟩
  | cons chunk chunks ih =>
    have hstep := readable_spec h ha chunk
    rw [List.map_cons, List.flatten_cons, ← List.append_assoc]
    cases hr : readable (msgServer H) w (a, chunk) with
    | error x =>
        rw [exec_cons_error hr]
        exact (hstep.of_error hr).append chunks.flatten
    | ok w1 =>
        obtain ⟨hstreams, htracks, -⟩ := hstep.of_ok hr
        rw [exec_cons_ok hr]
        simpa using ih htracks (hstreams ▸ ha)

theorem Tracks.handed {seen : Nat → Bytes} (h : Tracks H seen w) (ha : a ∈ w.streams) :
    handedMsgs a w.trace = handedOver H a (frames.drain (seen a)).1 := by
  obtain ⟨⟨-, hall⟩, hhanded, -⟩ := h.conn a ha
  rw [hhanded, handedOver_of_accepted hall]

/-- The dispatch that sees the EOF hands over no message. -/
theorem handedMsgs_endsTogether (last : List Bytes) :
    handedMsgs a (traceOf (endsTogether (msgServer H) a last w)) = handedMsgs a w.trace := by
  refine (adds_eof (P := fun o => o.msgOf a = none) ?_ rfl last w).extends_traceOf.filterMap_eq
    fun _ ho => ho
  intro b
  refine (appends_closeConnect b).mono ?_
  rintro o ⟨c, rfl⟩
  rfl

theorem handedMsgs_together (hw : Fresh w) (ha : a ∈ w.streams) (chunks last : List Bytes) :
    handedMsgs a (traceOf (peerRun (msgServer H) a chunks (endsTogether (msgServer H) a last) w)) =
      handedOver H a (frames.drain chunks.flatten).1 := by
  have hrun := readable_all_spec (hw.tracks H) ha chunks
  rw [List.nil_append] at hrun
  rw [peerRun]
  cases hr : exec (readable (msgServer H)) w (chunks.map fun c => (a, c)) with
  | error x =>
      exact (hrun.of_error hr).handed
  | ok w1 =>
      obtain ⟨hmem, htracks⟩ := hrun.of_ok hr
      rw [ok_bind, handedMsgs_endsTogether, htracks.handed hmem, Function.update_self]

theorem handedMsgs_later (hw : Fresh w) (ha : a ∈ w.streams) (chunks last : List Bytes) :
    handedMsgs a (traceOf (peerRun (msgServer H) a chunks (endsLater (msgServer H) a last) w)) =
      handedOver H a (frames.drain (chunks ++ last).flatten).1 := by
  have hrun := readable_all_spec (hw.tracks H) ha chunks
  rw [List.nil_append] at hrun
  rw [peerRun, List.flatten_append]
  cases hr : exec (readable (msgServer H)) w (chunks.map fun c => (a, c)) with
  | error x =>
      exact ((hrun.of_error hr).append last.flatten).handed
  | ok w1 =>
      obtain ⟨hmem, htracks⟩ := hrun.of_ok hr
      have hlast := readable_spec htracks hmem last.flatten
      rw [Function.update_self] at hlast
      rw [ok_bind, endsLater]
      cases hr1 : readable (msgServer H) w1 (a, last.flatten) with
      | error x => exact (hlast.of_error hr1).handed
      | ok w2 =>
          obtain ⟨hstreams, htracks2, -⟩ := hlast.of_ok hr1
          have hmem2 : a ∈ w2.streams := hstreams ▸ hmem
          rw [ok_bind, if_pos hmem2]
          refine (handedMsgs_endsTogether []).trans ?_
          rw [htracks2.handed hmem2, Function.update_self]

end MsgServer

/-! ### Lines -/

namespace HttpServer

variable {script : Script} {w : TcpServer HttpHandles} {a : Nat}

/-- Connection `a` has been accepted, and nothing of it has been read. -/
structure Unread (a : Nat) (w : TcpServer HttpHandles) : Prop where
  inv : Inv Handled none w
  streams : a ∈ w.streams
  handles : a ∉ w.ext.handles
  preadBuf : (w.heap a).preadBuf = []
  closed : (w.heap a).closed = false
  handed : handedTo a w.trace = []

theorem Unread.lined (h : Unread a w) : Lined a [] w := by
  refine ⟨h.inv, h.streams, fun hmem => absurd hmem h.handles, ?_, ?_⟩ <;> rw [crlfLines_drain_nil]
  · rw [← linesOf_handedTo, h.handed]
    rfl
  · exact h.preadBuf

theorem silent_endsTogether (last : List Bytes) (w : TcpServer HttpHandles) :
    Adds Obs.Silent w.trace (endsTogether (httpServer script) a last w) :=
  adds_eof appends_closeConnect_silent (fun _ => ⟨rfl, rfl⟩) last w

theorem linesOf_together (hscript : ∀ t, ∀ act ∈ script t, Spares a act) (hw : Unread a w)
    (chunks last : List Bytes) :
    linesOf a (traceOf
        (peerRun (httpServer script) a chunks (endsTogether (httpServer script) a last) w)) =
      (crlfLines.drain chunks.flatten).1 := by
  have hrun := readable_all_lined hscript hw.lined chunks
  rw [List.nil_append] at hrun
  rw [peerRun]
  cases hr : exec (readable (httpServer script)) w (chunks.map fun c => (a, c)) with
  | error x => exact (hrun.of_error hr).elim
  | ok w1 =>
      rw [ok_bind, (silent_endsTogether last w1).extends_traceOf.linesOf_eq a]
      exact (hrun.of_ok hr).lines

theorem linesOf_later (hscript : ∀ t, ∀ act ∈ script t, Spares a act) (hw : Unread a w)
    (chunks last : List Bytes) :
    linesOf a (traceOf
        (peerRun (httpServer script) a chunks (endsLater (httpServer script) a last) w)) =
      (crlfLines.drain (chunks ++ last).flatten).1 := by
  have hrun := readable_all_lined hscript hw.lined chunks
  rw [List.nil_append] at hrun
  rw [peerRun, List.flatten_append]
  cases hr : exec (readable (httpServer script)) w (chunks.map fun c => (a, c)) with
  | error x => exact (hrun.of_error hr).elim
  | ok w1 =>
      have hlast := readable_lined hscript (hrun.of_ok hr) last.flatten
      rw [ok_bind, endsLater]
      cases hr1 : readable (httpServer script) w1 (a, last.flatten) with
      | error x => exact (hlast.of_error hr1).elim
      | ok w2 =>
          have hlined := hlast.of_ok hr1
          rw [ok_bind, if_pos hlined.streams]
          refine ((silent_endsTogether [] w2).extends_traceOf.linesOf_eq a).trans ?_
          exact hlined.lines

/-! ### Any script -/

/-- Nothing is ready to be handed over for connection `a` when `data` arrives:
in line mode no line is complete, in message mode there is no byte, or the script
has no handler. -/
def Quiet (a : Nat) (w : TcpServer HttpHandles) (data : Bytes) : Prop :=
  (a ∈ w.ext.handles ∧ a ∉ w.ext.pyHandles) ∨
    if a ∈ w.ext.handles ∧ (w.senders a).any (·.readingLine) = false then
      (w.heap a).preadBuf ++ data = []
    else findCRLF ((w.heap a).preadBuf ++ data) = none

theorem silent_lineLoop (script : Script)
    (h : a ∉ w.ext.pyHandles ∨ findCRLF (w.heap a).preadBuf = none) (turns : Nat) :
    Adds Obs.Silent w.trace (lineLoop script a turns w) := by
  rcases h with hpy | hnone
  · obtain ⟨buf, heq⟩ := lineLoop_torn script hpy turns
    rw [heq]
    exact .refl _ _
  · rw [lineLoop_none hnone]
    exact .refl _ _

theorem silent_httpHandleRead (script : Script) (h : a ∉ w.ext.pyHandles ∨
      if (w.senders a).any (·.readingLine) = true then findCRLF (w.heap a).preadBuf = none
      else (w.heap a).preadBuf = []) :
    Adds Obs.Silent w.trace (httpHandleRead script a w) := by
  unfold httpHandleRead
  by_cases hread : (w.senders a).any (·.readingLine) = true
  · rw [if_pos hread] at h ⊢
    exact silent_lineLoop script h _
  · rw [if_neg hread] at h ⊢
    split
    · exact .refl _ _
    · rename_i hne
      have hpy := h.resolve_right hne
      rw [callHandler, if_neg (by exact hpy)]
      exact .refl _ _

theorem loud_httpHandleRead (script : Script) (hpy : a ∈ w.ext.pyHandles)
    (h : if (w.senders a).any (·.readingLine) = true then findCRLF (w.heap a).preadBuf ≠ none
      else (w.heap a).preadBuf ≠ []) :
    ∃ o : Obs, ((o.lineOf a).isSome = true ∨ (o.messageOf a).isSome = true) ∧
      Adds anything (w.trace ++ [o]) (httpHandleRead script a w) := by
  unfold httpHandleRead
  by_cases hread : (w.senders a).any (·.readingLine) = true
  · rw [if_pos hread] at h ⊢
    obtain ⟨idx, hidx⟩ := Option.ne_none_iff_exists'.mp h
    have hlt := findCRLF_lt hidx
    exact ⟨_, .inl (by simp [Obs.lineOf]), lineLoop_first script hpy hidx (by omega)⟩
  · rw [if_neg hread] at h ⊢
    rw [if_neg h, callHandler, if_pos (by exact hpy)]
    refine ⟨.handleMessage a (w.heap a).preadBuf, .inr (by simp [Obs.messageOf]), ?_⟩
    exact (appends_script script).at rfl

theorem quiet_iff (data : Bytes) :
    Quiet a w data ↔
      a ∉ (entered a (w.received a data)).ext.pyHandles ∨
        if ((entered a (w.received a data)).senders a).any (·.readingLine) = true then
          findCRLF ((entered a (w.received a data)).heap a).preadBuf = none
        else ((entered a (w.received a data)).heap a).preadBuf = [] := by
  rw [entered_heap, TcpServer.received_heap_self, Quiet]
  by_cases hmem : a ∈ w.ext.handles
  · have hent : entered a (w.received a data) = w.received a data := if_pos hmem
    rw [hent, TcpServer.received_ext, TcpServer.received_senders]
    cases hread : (w.senders a).any (·.readingLine) with
    | true => simp [hmem]
    | false => simp [hmem]
  · have hent : entered a (w.received a data) = makeHandle a (w.received a data) := if_neg hmem
    rw [hent]
    simp [hmem, makeHandle]

theorem appends_eof (script : Script) (a : Nat) :
    Appends Obs.Silent (fun w : TcpServer HttpHandles =>
      if a ∈ w.streams then TcpStream.handleRead (httpServer script) ⟨[], .eof⟩ a w
      else .ok w) := by
  intro w
  dsimp only
  split
  · exact silent_endsTogether [] w
  · exact .refl _ _

/-- The two ways to end hand over the same iff there is nothing to hand over. -/
theorem handedTo_together_iff (ha : a ∈ w.streams) (last : List Bytes) :
    handedTo a (traceOf (endsTogether (httpServer script) a last w)) =
        handedTo a (traceOf (endsLater (httpServer script) a last w)) ↔
      Quiet a w last.flatten := by
  have hent : Adds Obs.Silent w.trace (.ok (entered a (w.received a last.flatten))) :=
    (received_trace last.flatten).trans entered_trace
  have hsame := hent.handedTo_eq a
  rw [(silent_endsTogether last w).handedTo_eq a, quiet_iff, endsLater, readable_http ha]
  constructor
  · intro heq
    by_contra hloud
    rw [not_or, not_not] at hloud
    obtain ⟨o, ho, hadds⟩ := loud_httpHandleRead script hloud.1 (by
      split
      · rename_i hread
        simpa [hread] using hloud.2
      · rename_i hread
        simpa [hread] using hloud.2)
    have hgrows := (hadds.bind fun w' => (appends_eof script a).mono
      (Q := anything) (fun _ _ => trivial) w').extends_traceOf
    have hlen := (hgrows.filterMap_prefix (Obs.handedOf a)).length_le
    have hone : [o].filterMap (Obs.handedOf a) = [o] := by simp [Obs.handedOf, ho]
    rw [List.filterMap_append, hone, List.length_append, List.length_singleton] at hlen
    -- one entry more than before, although both runs hand over the same
    have hfew := congrArg List.length (heq.symm.trans hsame.symm)
    exact absurd (hlen.trans_eq hfew) (Nat.not_succ_le_self _)
  · intro hquiet
    have hadds := (silent_httpHandleRead script hquiet).bind fun w' =>
      appends_eof script a w'
    exact ((Extends.adds hent hadds).handedTo_eq a).symm

end HttpServer

/-! ### Both servers -/

/-- What is handed over when the EOF comes together with the last data is all
there is, and what is handed over when the EOF comes later. -/
def NothingLost {β : Type} (all together later : List β) : Prop :=
  together = all ∧ together = later

theorem MsgServer.nothingLost_iff (H : Handler) {w : TcpServer ConnMsgs} (hw : Fresh w) {a : Nat}
    (ha : a ∈ w.streams) (chunks last : List Bytes) :
    NothingLost (frames.drain (chunks ++ last).flatten).1
        (handedMsgs a (traceOf
          (peerRun (msgServer H) a chunks (endsTogether (msgServer H) a last) w)))
        (handedMsgs a (traceOf
          (peerRun (msgServer H) a chunks (endsLater (msgServer H) a last) w))) ↔
      (frames.drain chunks.flatten).1 = (frames.drain (chunks ++ last).flatten).1 ∧
        ∀ p ∈ (frames.drain (chunks ++ last).flatten).1.dropLast, (H.onMsg a p).isOk = true := by
  rw [handedMsgs_together hw ha, handedMsgs_later hw ha, NothingLost, ← handedOver_eq_self_iff]
  constructor
  · rintro ⟨hall, hlater⟩
    have hle := (handedOver_isPrefix (H := H) (a := a) (frames.drain chunks.flatten).1).length_le
    have hpre := frames.drain_fst_prefix chunks.flatten last.flatten
    rw [← List.flatten_append] at hpre
    rw [hall] at hle
    exact ⟨hpre.eq_of_length_le hle, hlater ▸ hall⟩
  · rintro ⟨hsame, hself⟩
    rw [hsame]
    exact ⟨hself, rfl⟩

theorem HttpServer.nothingLost_iff {script : Script} {w : TcpServer HttpHandles} {a : Nat}
    (hscript : ∀ t, ∀ act ∈ script t, Spares a act) (hw : Unread a w) (chunks last : List Bytes) :
    NothingLost (crlfLines.drain (chunks ++ last).flatten).1
        (linesOf a (traceOf
          (peerRun (httpServer script) a chunks (endsTogether (httpServer script) a last) w)))
        (linesOf a (traceOf
          (peerRun (httpServer script) a chunks (endsLater (httpServer script) a last) w))) ↔
      (crlfLines.drain chunks.flatten).1 = (crlfLines.drain (chunks ++ last).flatten).1 := by
  rw [linesOf_together hscript hw, linesOf_later hscript hw, NothingLost, and_self]

/-! ### On the memory of the buffers -/

namespace OnMemory

variable {C : MemClass ε} {C' : ServerClass ε} {m : OnMemory ε} {a : Nat}

/-- One dispatch: the receive loop gets `last` and then the EOF. -/
def endsTogether (C : MemClass ε) (a : Nat) (last : List Block) : MemMethod ε :=
  MemTcpStream.handleRead C ⟨last, .eof⟩ a

/-- Two dispatches: the first gets the data, the second the EOF, if the
connection is still there. -/
def endsLater (C : MemClass ε) (a : Nat) (last : List Block) : MemMethod ε := fun m => do
  let m ← readable C m (a, last)
  if a ∈ m.server.streams then MemTcpStream.handleRead C ⟨[], .eof⟩ a m else return m

/-- The peer of connection `a` sends what `dispatches` receive, and then ends. -/
def peerRun (C : MemClass ε) (a : Nat) (dispatches : List (List Block)) (ends : MemMethod ε) :
    MemMethod ε := fun m => do
  let m ← exec (readable C) m (dispatches.map fun d => (a, d))
  ends m

theorem endsTogether_views (hC : ViewsAs C C') (h : m.Sync) {last : List Block}
    (hkeeps : (m.pread a).KeepsAll last) :
    Views server Sync (endsTogether C a last m)
      (Server.endsTogether C' a (last.map Prod.fst) m.server) :=
  handleRead_views hC h hkeeps

theorem endsLater_views (hC : ViewsAs C C') (h : m.Sync) {last : List Block}
    (hkeeps : (m.pread a).KeepsAll last) :
    Views server Sync (endsLater C a last m)
      (Server.endsLater C' a (last.map Prod.fst) m.server) := by
  refine (readable_views hC h (e := (a, last)) hkeeps).bind fun m' h' => ?_
  split
  · exact handleRead_views hC h' (d := ⟨[], .eof⟩) trivial
  · exact ⟨rfl, h'⟩

/-- A run that loses no byte ends as the run of the server without memory does. -/
theorem peerRun_views (hC : ViewsAs C C') (h : m.Sync) {dispatches : List (List Block)}
    {last : List Block} (hkeeps : Lossless C a m (dispatches ++ [last])) {ends : MemMethod ε}
    {ends' : Method ε} (hends : ∀ m : OnMemory ε, m.Sync → (m.pread a).KeepsAll last →
      Views server Sync (ends m) (ends' m.server)) :
    Views server Sync (peerRun C a dispatches ends m)
      (Server.peerRun C' a (dispatches.map Buffer.bytes) ends' m.server) := by
  rw [Lossless, List.map_append] at hkeeps
  have hfirst : Lossless C a m dispatches := hkeeps.of_prefix (List.prefix_append _ _)
  have hrun := hfirst.views hC h
  rw [peerRun, Server.peerRun]
  obtain ⟨heq, hinv⟩ := hrun
  rw [← heq]
  cases hr : exec (readable C) m (dispatches.map fun d => (a, d)) with
  | error x => exact views_error x
  | ok m1 =>
    rw [hr] at hinv
    exact hends m1 hinv ((every_append hr _).mp hkeeps).2.1

/-- What a run that loses no byte hands over is what the server without memory does, for both
ways to end. -/
theorem traceOf_peerRun (hC : ViewsAs C C') (h : m.Sync) {dispatches : List (List Block)}
    {last : List Block} (hkeeps : Lossless C a m (dispatches ++ [last])) :
    traceOf (peerRun C a dispatches (endsTogether C a last) m) =
        Server.traceOf (Server.peerRun C' a (dispatches.map Buffer.bytes)
          (Server.endsTogether C' a (last.map Prod.fst)) m.server) ∧
      traceOf (peerRun C a dispatches (endsLater C a last) m) =
        Server.traceOf (Server.peerRun C' a (dispatches.map Buffer.bytes)
          (Server.endsLater C' a (last.map Prod.fst)) m.server) :=
  ⟨traceOf_eq (peerRun_views hC h hkeeps fun _ hm => endsTogether_views hC hm),
    traceOf_eq (peerRun_views hC h hkeeps fun _ hm => endsLater_views hC hm)⟩

/-- **End of stream.** A peer sends a stream in any dispatches and its EOF is seen by
the receive loop that gets the last data. No byte is lost in `pread_buf` and no frame or line is
lost iff no dispatch makes the buffer reallocate over unread bytes and the last data completes
no frame (and no frame before the last aborts the server), or no line. For any script and state
the sequence handed over is the one of a later EOF iff nothing is ready in the buffer when the
EOF is seen. -/
theorem end_of_stream_iff (a : Nat) (dispatches : List (List Block)) (last : List Block) :
    (∀ (H : Handler) (m : OnMemory ConnMsgs), m.Sync → MsgServer.Fresh m.server →
      a ∈ m.server.streams →
      (Intact (memMsgServer H) a m (dispatches ++ [last]) ∧
        NothingLost (frames.drain (Buffer.bytes (dispatches ++ [last]).flatten)).1
          (handedMsgs a (traceOf
            (peerRun (memMsgServer H) a dispatches (endsTogether (memMsgServer H) a last) m)))
          (handedMsgs a (traceOf
            (peerRun (memMsgServer H) a dispatches (endsLater (memMsgServer H) a last) m))) ↔
        Lossless (memMsgServer H) a m (dispatches ++ [last]) ∧
        (frames.drain (Buffer.bytes dispatches.flatten)).1 =
          (frames.drain (Buffer.bytes (dispatches ++ [last]).flatten)).1 ∧
        ∀ p ∈ (frames.drain (Buffer.bytes (dispatches ++ [last]).flatten)).1.dropLast,
          (H.onMsg a p).isOk = true)) ∧
    (∀ (script : Script) (m : OnMemory HttpHandles), m.Sync →
      (∀ t, ∀ act ∈ script t, HttpServer.Spares a act) → HttpServer.Unread a m.server →
      (Intact (memHttpServer script) a m (dispatches ++ [last]) ∧
        NothingLost (crlfLines.drain (Buffer.bytes (dispatches ++ [last]).flatten)).1
          (linesOf a (traceOf
            (peerRun (memHttpServer script) a dispatches
              (endsTogether (memHttpServer script) a last) m)))
          (linesOf a (traceOf
            (peerRun (memHttpServer script) a dispatches
              (endsLater (memHttpServer script) a last) m))) ↔
        Lossless (memHttpServer script) a m (dispatches ++ [last]) ∧
        (crlfLines.drain (Buffer.bytes dispatches.flatten)).1 =
          (crlfLines.drain (Buffer.bytes (dispatches ++ [last]).flatten)).1)) ∧
    ∀ (script : Script) (m : OnMemory HttpHandles), m.Sync → a ∈ m.server.streams →
      ((m.pread a).Receives last ∧
        handedTo a (traceOf (endsTogether (memHttpServer script) a last m)) =
          handedTo a (traceOf (endsLater (memHttpServer script) a last m)) ↔
        (m.pread a).KeepsAll last ∧ HttpServer.Quiet a m.server (Buffer.bytes last)) := by
  have hall : Buffer.bytes (dispatches ++ [last]).flatten =
      (dispatches.map Buffer.bytes ++ last.map Prod.fst).flatten := by
    rw [List.flatten_append, List.flatten_singleton, Buffer.bytes_append, Buffer.bytes_flatten,
      List.flatten_append]
    rfl
  have hfirst := Buffer.bytes_flatten dispatches
  refine ⟨?_, ?_, ?_⟩
  · intro H m h hw ha
    rw [intact_iff (viewsAs_msgServer H) h, hall, hfirst]
    refine and_congr_right fun hkeeps => ?_
    obtain ⟨htogether, hlater⟩ := traceOf_peerRun (viewsAs_msgServer H) h hkeeps
    rw [htogether, hlater]
    exact MsgServer.nothingLost_iff H hw ha _ _
  · intro script m h hscript hw
    rw [intact_iff (viewsAs_httpServer script) h, hall, hfirst]
    refine and_congr_right fun hkeeps => ?_
    obtain ⟨htogether, hlater⟩ := traceOf_peerRun (viewsAs_httpServer script) h hkeeps
    rw [htogether, hlater]
    exact HttpServer.nothingLost_iff hscript hw _ _
  · intro script m h ha
    rw [Buffer.receives_iff (h a).1]
    refine and_congr_right fun hkeeps => ?_
    have hC := viewsAs_httpServer script
    rw [traceOf_eq (endsTogether_views hC h hkeeps),
      traceOf_eq (endsLater_views hC h hkeeps)]
    exact HttpServer.handedTo_together_iff ha _

/-- A server with one connection, which has received nothing. -/
def oneConnection : OnMemory ConnMsgs := fresh ((TcpServer.bind 3 fun _ => none).connected 4)

theorem fresh_oneConnection : MsgServer.Fresh oneConnection.server :=
  (MsgServer.fresh_bind 3).connected rfl

theorem sync_oneConnection : oneConnection.Sync :=
  sync_fresh fun a => (fresh_oneConnection.unread a).2.1

/-- A handler that takes the ids off every message. -/
def accepting : Handler := MsgServer.eraser (fun _ p => p.drop 8) fun _ => []

/-- The block in which one frame arrives. -/
def oneFrame : Block := ([9, 0, 0, 0, 1, 0, 0, 0, 2, 0, 0, 0, 7], fun _ => 0)

/-- The theorem at a server with one connection, whose peer sends one frame in
the receive loop that sees its EOF. -/
theorem end_of_stream_iff_one_frame :
    Intact (memMsgServer accepting) 1 oneConnection ([] ++ [[oneFrame]]) ∧
      NothingLost (frames.drain (Buffer.bytes ([] ++ [[oneFrame]]).flatten)).1
        (handedMsgs 1 (traceOf (peerRun (memMsgServer accepting) 1 []
          (endsTogether (memMsgServer accepting) 1 [oneFrame]) oneConnection)))
        (handedMsgs 1 (traceOf (peerRun (memMsgServer accepting) 1 []
          (endsLater (memMsgServer accepting) 1 [oneFrame]) oneConnection))) ↔
      Lossless (memMsgServer accepting) 1 oneConnection ([] ++ [[oneFrame]]) ∧
        (frames.drain (Buffer.bytes [].flatten)).1 =
          (frames.drain (Buffer.bytes ([] ++ [[oneFrame]]).flatten)).1 ∧
        ∀ p ∈ (frames.drain (Buffer.bytes ([] ++ [[oneFrame]]).flatten)).1.dropLast,
          (accepting.onMsg 1 p).isOk = true :=
  (end_of_stream_iff 1 [] [oneFrame]).1 accepting oneConnection
    sync_oneConnection fresh_oneConnection (by decide)

/-- A frame that comes with the EOF is never handed over. -/
theorem frame_with_eof_lost :
    ¬ NothingLost (frames.drain (Buffer.bytes [oneFrame])).1
        (handedMsgs 1 (traceOf (peerRun (memMsgServer accepting) 1 []
          (endsTogether (memMsgServer accepting) 1 [oneFrame]) oneConnection)))
        (handedMsgs 1 (traceOf (peerRun (memMsgServer accepting) 1 []
          (endsLater (memMsgServer accepting) 1 [oneFrame])
          oneConnection))) := by
  have hkeeps : Lossless (memMsgServer accepting) 1 oneConnection
      ([] ++ [[oneFrame]]) := ⟨Buffer.keepsAll_new _ (by decide), fun _ _ => trivial⟩
  obtain ⟨htogether, -⟩ := traceOf_peerRun (viewsAs_msgServer accepting)
    sync_oneConnection hkeeps
  rw [htogether]
  rintro ⟨hall, -⟩
  have hnext : frames.next (Buffer.bytes [oneFrame]) =
      some ([1, 0, 0, 0, 2, 0, 0, 0, 7], []) := rfl
  rw [frames.drain_of_some hnext] at hall
  cases hall

end OnMemory

end MixServer.Server
