import MixServer.Server.HttpClose
import MixServer.Server.Trace

/-!
What `HttpServer::handle_read` hands to the script.

* `lineLoop_first`: whatever the script does, a complete line is handed over.
* `lineLoop_torn`: a connection that has been torn down is handed nothing.
* `readable_all_lined`: while the script leaves a connection alone, the complete
  lines of its stream are handed over, however the stream is cut.
-/

namespace MixServer.Server

open Lib Net
open Function (update)

/-! ### What a connection has been handed -/

/-- The line an entry hands over for connection `a`. -/
def Obs.lineOf (a : Nat) : Obs → Option Bytes
  | .handleLine b s => if b = a then some s else none
  | _ => none

/-- The bytes an entry hands over for connection `a` in message mode. -/
def Obs.messageOf (a : Nat) : Obs → Option Bytes
  | .handleMessage b s => if b = a then some s else none
  | _ => none

/-- The lines handed over for connection `a`, in order. -/
def linesOf (a : Nat) (trace : List Obs) : List Bytes := trace.filterMap (Obs.lineOf a)

/-- The messages handed over for connection `a`, in order. -/
def messagesOf (a : Nat) (trace : List Obs) : List Bytes := trace.filterMap (Obs.messageOf a)

@[simp] theorem linesOf_append (a : Nat) (t t' : List Obs) :
    linesOf a (t ++ t') = linesOf a t ++ linesOf a t' := List.filterMap_append

@[simp] theorem messagesOf_append (a : Nat) (t t' : List Obs) :
    messagesOf a (t ++ t') = messagesOf a t ++ messagesOf a t' := List.filterMap_append

/-- The entry, if it hands a line or a message over for connection `a`. -/
def Obs.handedOf (a : Nat) (o : Obs) : Option Obs :=
  if (o.lineOf a).isSome ∨ (o.messageOf a).isSome then some o else none

/-- The lines and messages handed over for connection `a`, in order. -/
def handedTo (a : Nat) (trace : List Obs) : List Obs := trace.filterMap (Obs.handedOf a)

@[simp] theorem handedTo_append (a : Nat) (t t' : List Obs) :
    handedTo a (t ++ t') = handedTo a t ++ handedTo a t' := List.filterMap_append

theorem handedTo_line (a : Nat) (s : Bytes) :
    handedTo a [.handleLine a s] = [.handleLine a s] := by
  simp [handedTo, Obs.handedOf, Obs.lineOf]

theorem handedTo_message (a : Nat) (s : Bytes) :
    handedTo a [.handleMessage a s] = [.handleMessage a s] := by
  simp [handedTo, Obs.handedOf, Obs.messageOf]

/-- An entry that hands nothing over. -/
def Obs.Silent (o : Obs) : Prop := ∀ a, o.lineOf a = none ∧ o.messageOf a = none

theorem Extends.linesOf_eq {t t' : List Obs} (h : Extends Obs.Silent t t') (a : Nat) :
    linesOf a t' = linesOf a t := h.filterMap_eq fun _ ho => (ho a).1

theorem Extends.messagesOf_eq {t t' : List Obs} (h : Extends Obs.Silent t t') (a : Nat) :
    messagesOf a t' = messagesOf a t := h.filterMap_eq fun _ ho => (ho a).2

theorem Extends.handedTo_eq {t t' : List Obs} (h : Extends Obs.Silent t t') (a : Nat) :
    handedTo a t' = handedTo a t :=
  h.filterMap_eq fun _ ho => if_neg (by simp [(ho a).1, (ho a).2])

theorem Adds.handedTo_eq {ε : Type} {t : List Obs} {r : Except Crash (TcpServer ε)}
    (h : Adds Obs.Silent t r) (a : Nat) : handedTo a (traceOf r) = handedTo a t :=
  h.extends_traceOf.handedTo_eq a

theorem Obs.IsClose.silent {o : Obs} (h : o.IsClose) : o.Silent := by
  obtain ⟨a, rfl⟩ := h
  exact fun _ => ⟨rfl, rfl⟩

/-- A reading that sees only what is handed over to `a` may skip the rest. -/
theorem filterMap_handedTo {β : Type} {f : Obs → Option β} {a : Nat}
    (hf : ∀ o, (f o).isSome → (o.lineOf a).isSome ∨ (o.messageOf a).isSome) (t : List Obs) :
    (handedTo a t).filterMap f = t.filterMap f := by
  rw [handedTo, List.filterMap_filterMap]
  apply List.filterMap_congr
  intro o _
  unfold Obs.handedOf
  split
  · rfl
  · rename_i hn
    have hnone : ¬ (f o).isSome := fun hsome => hn (hf o hsome)
    exact (Option.not_isSome_iff_eq_none.mp hnone).symm

theorem linesOf_handedTo (a : Nat) (t : List Obs) : linesOf a (handedTo a t) = linesOf a t :=
  filterMap_handedTo (fun _ => .inl) t

theorem messagesOf_handedTo (a : Nat) (t : List Obs) :
    messagesOf a (handedTo a t) = messagesOf a t :=
  filterMap_handedTo (fun _ => .inr) t

namespace HttpServer

variable {script : Script} {w w' : TcpServer HttpHandles} {a : Nat}

/-! ### Growing traces -/

theorem appends_closeConnect_silent (b : Nat) : Appends Obs.Silent (closeConnect b) := by
  intro w
  unfold closeConnect
  refine Adds.bind ((appends_closeConnect b).mono (fun _ => Obs.IsClose.silent) w) ?_
  intro w1
  split
  · refine Adds.bind ?_ fun w2 => .refl _ w2.trace
    have hlog : Extends Obs.Silent w1.trace (w1.log (.pyHandleClose b)).trace :=
      .single (fun _ => ⟨rfl, rfl⟩) w1.trace
    unfold pyHandleClose
    split
    · dsimp only
      split
      · exact hlog
      · exact hlog
    · exact .refl _ _
  · exact .refl _ _

/-- Entries of any kind. -/
def anything : Obs → Prop := fun _ => True

theorem appends_script (script : Script) : Appends anything (script.call closeConnect) :=
  appends_call (fun b => (appends_closeConnect_silent b).mono fun _ _ => trivial) script

theorem appends_callHandler (o : Obs) : Appends anything (callHandler script a o) := by
  intro w
  unfold callHandler
  split
  · exact (Extends.single trivial w.trace).adds (appends_script script (w.log o))
  · exact .refl _ _

theorem appends_lineLoop (turns : Nat) : Appends anything (lineLoop script a turns) := by
  intro w
  induction turns generalizing w with
  | zero => exact .refl _ _
  | succ turns ih =>
    simp only [lineLoop]
    split
    · exact .refl _ _
    · exact Adds.bind ((appends_callHandler _).at rfl) fun w' => ih w'

theorem lineLoop_none {script : Script} (h : findCRLF (w.heap a).preadBuf = none) (turns : Nat) :
    lineLoop script a turns w = .ok w := by
  cases turns with
  | zero => rfl
  | succ turns => simp [lineLoop, h]

/-- Whatever the script does, a complete line is handed over first. -/
theorem lineLoop_first (script : Script) {turns idx : Nat} (hpy : a ∈ w.ext.pyHandles)
    (hidx : findCRLF (w.heap a).preadBuf = some idx) (hturns : 0 < turns) :
    Adds anything (w.trace ++ [.handleLine a ((w.heap a).preadBuf.take idx)])
      (lineLoop script a turns w) := by
  obtain ⟨turns, rfl⟩ := Nat.exists_eq_succ_of_ne_zero hturns.ne'
  simp only [lineLoop, hidx]
  refine Adds.bind ?_ fun w' => appends_lineLoop turns w'
  rw [callHandler, if_pos (by exact hpy)]
  exact (appends_script script).at rfl

/-- A connection whose handler is gone is handed nothing. -/
theorem lineLoop_torn (script : Script) (hpy : a ∉ w.ext.pyHandles) (turns : Nat) :
    ∃ buf, lineLoop script a turns w =
      .ok (w.modify a fun s => { s with preadBuf := buf }) := by
  induction turns generalizing w with
  | zero => exact ⟨(w.heap a).preadBuf, by simp [lineLoop, TcpServer.modify]⟩
  | succ turns ih =>
    simp only [lineLoop]
    split
    · exact ⟨(w.heap a).preadBuf, by simp [TcpServer.modify]⟩
    · rename_i idx _
      rw [callHandler, if_neg (by exact hpy), ok_bind]
      obtain ⟨buf, heq⟩ := ih (w := w.modify a fun s =>
        { s with preadBuf := s.preadBuf.drop (idx + 2) }) hpy
      exact ⟨buf, heq.trans (by simp [TcpServer.modify])⟩

/-! ### A script that leaves the connection alone -/

/-- What the reading of connection `a` depends on is the same. -/
structure SameConn (a : Nat) (w w' : TcpServer HttpHandles) : Prop where
  streams : a ∈ w'.streams ↔ a ∈ w.streams
  handles : a ∈ w'.ext.handles ↔ a ∈ w.ext.handles
  pyHandles : a ∈ w'.ext.pyHandles ↔ a ∈ w.ext.pyHandles
  preadBuf : (w'.heap a).preadBuf = (w.heap a).preadBuf
  reading : (w.senders a).any (·.readingLine) = true → (w'.senders a).any (·.readingLine) = true

theorem SameConn.refl (a : Nat) (w : TcpServer HttpHandles) : SameConn a w w :=
  ⟨Iff.rfl, Iff.rfl, Iff.rfl, rfl, id⟩

theorem SameConn.trans {w'' : TcpServer HttpHandles} (h : SameConn a w w')
    (h' : SameConn a w' w'') : SameConn a w w'' :=
  ⟨h'.streams.trans h.streams, h'.handles.trans h.handles, h'.pyHandles.trans h.pyHandles,
    h'.preadBuf.trans h.preadBuf, fun hr => h'.reading (h.reading hr)⟩

theorem sameConn_close {b : Nat} (hb : a ≠ b) (h : TcpStream.close closeConnect b w = .ok w') :
    SameConn a w w' := by
  simp only [TcpStream.close] at h
  split at h
  · obtain ⟨w1, hcc, h⟩ := bind_eq_ok.mp h
    cases h
    have hu := untouched_of_closeConnect hcc hb
    refine ⟨hu.streams, hu.handles, hu.pyHandles, ?_, ?_⟩
    · rw [TcpServer.modify_heap_of_ne _ hb, hu.heap, TcpServer.modify_heap_of_ne _ hb]
    · intro hr
      rw [TcpServer.modify_senders, hu.senders]
      exact hr
  · cases h
    exact ⟨Iff.rfl, Iff.rfl, Iff.rfl, by rw [TcpServer.modify_heap_of_ne _ hb], id⟩

/-- The action neither closes connection `a` nor ends its line mode. -/
def Spares (a : Nat) (act : Action) : Prop := act ≠ .close a ∧ act ≠ .setReadingLine a false

theorem perform_spares {act : Action} (hact : Spares a act) (h : Inv Handled none w) :
    Ensures (act.perform closeConnect w) (SameConn a w) (fun _ => True) := by
  cases act with
  | send b p =>
      simp only [Action.perform]
      split
      · rename_i hb
        rw [h.send_eq hb.2, ensures_ok]
        refine ⟨Iff.rfl, Iff.rfl, Iff.rfl, ?_, id⟩
        rw [TcpServer.modify_heap]
        split
        · rename_i hba
          subst hba
          simp
        · rename_i hba
          simp [TcpServer.setEvents_heap, hba]
      · exact .refl a w
  | close b =>
      have hb : a ≠ b := fun hab => hact.1 (hab ▸ rfl)
      simp only [Action.perform]
      split
      · exact .refl a w
      · split
        · exact .refl a w
        · simp only [PySender.close]
          cases hc : TcpStream.close closeConnect b w with
          | error x => trivial
          | ok w1 =>
              refine (sameConn_close hb hc).trans ⟨Iff.rfl, Iff.rfl, Iff.rfl, rfl, ?_⟩
              intro hr
              simpa [PySender.modify, hb] using hr
  | setReadingLine b value =>
      refine ⟨Iff.rfl, Iff.rfl, Iff.rfl, rfl, ?_⟩
      intro hr
      by_cases hb : a = b
      · subst hb
        cases value with
        | false => exact absurd rfl hact.2
        | true => cases hs : w.senders a <;> simp_all [PySender.modify]
      · simpa [PySender.modify, hb] using hr

/-- The actions of a script that spares the connection, all performed. -/
theorem performAll_spares {acts : List Action} (hacts : ∀ act ∈ acts, Spares a act)
    (h : Inv Handled none w) :
    Ensures (exec (Action.perform closeConnect) w acts)
      (fun w' => Inv Handled none w' ∧ SameConn a w w' ∧ linesOf a w'.trace = linesOf a w.trace)
      (fun _ => False) := by
  induction acts generalizing w with
  | nil => exact ⟨h, .refl a w, rfl⟩
  | cons act acts ih =>
    have hinv := h.perform (E := fun _ => False) closes_http act
    have hsame := perform_spares (hacts act List.mem_cons_self) h
    have htrace := adds_perform appends_closeConnect_silent w act
    cases hr : act.perform closeConnect w with
    | error x => exact (hinv.of_error hr).elim
    | ok w1 =>
        rw [exec_cons_ok hr]
        refine (ih (fun act' hact' => hacts act' (List.mem_cons_of_mem _ hact'))
          (hinv.of_ok hr)).mono ?_ fun _ => id
        rintro w' ⟨hinv', hsame', hlines⟩
        exact ⟨hinv', (hsame.of_ok hr).trans hsame',
          hlines.trans ((htrace.of_ok hr : Extends _ _ _).linesOf_eq a)⟩

/-! ### Line mode -/

theorem crlfLines_next_of_some {buf : Bytes} {idx : Nat} (h : findCRLF buf = some idx) :
    crlfLines.next buf = some (buf.take idx, buf.drop (idx + 2)) := by
  simp [crlfLines, h]

theorem crlfLines_next_of_none {buf : Bytes} (h : findCRLF buf = none) :
    crlfLines.next buf = none := by
  simp [crlfLines, h]

theorem crlfLines_drain_nil : crlfLines.drain [] = ([], []) :=
  crlfLines.drain_of_none (crlfLines_next_of_none rfl)

/-- The bytes of connection `a` are read line by line. -/
structure ReadsLines (a : Nat) (w : TcpServer HttpHandles) : Prop where
  inv : Inv Handled none w
  streams : a ∈ w.streams
  handles : a ∈ w.ext.handles
  pyHandles : a ∈ w.ext.pyHandles
  reading : (w.senders a).any (·.readingLine) = true

theorem ReadsLines.of_sameConn (h : ReadsLines a w) (hinv : Inv Handled none w')
    (hsame : SameConn a w w') : ReadsLines a w' :=
  ⟨hinv, hsame.streams.mpr h.streams, hsame.handles.mpr h.handles,
    hsame.pyHandles.mpr h.pyHandles, hsame.reading h.reading⟩

/-- While the script spares the connection, the loop hands over the complete
lines and keeps the rest. -/
theorem lineLoop_lines (hscript : ∀ t, ∀ act ∈ script t, Spares a act) (h : ReadsLines a w)
    {turns : Nat} (hturns : (w.heap a).preadBuf.length ≤ turns) :
    Ensures (lineLoop script a turns w)
      (fun w' => ReadsLines a w' ∧
        linesOf a w'.trace = linesOf a w.trace ++ (crlfLines.drain (w.heap a).preadBuf).1 ∧
        (w'.heap a).preadBuf = (crlfLines.drain (w.heap a).preadBuf).2)
      (fun _ => False) := by
  induction turns generalizing w with
  | zero =>
    have hnil : (w.heap a).preadBuf = [] := List.length_eq_zero_iff.mp (Nat.le_zero.mp hturns)
    simp only [lineLoop, ensures_ok, hnil, crlfLines_drain_nil]
    exact ⟨h, (List.append_nil _).symm, trivial⟩
  | succ turns ih =>
    simp only [lineLoop]
    cases hidx : findCRLF (w.heap a).preadBuf with
    | none =>
        rw [crlfLines.drain_of_none (crlfLines_next_of_none hidx)]
        exact ⟨h, (List.append_nil _).symm, rfl⟩
    | some idx =>
        rw [crlfLines.drain_of_some (crlfLines_next_of_some hidx)]
        dsimp only
        set line := (w.heap a).preadBuf.take idx with hline
        set w1 := w.modify a fun s => { s with preadBuf := s.preadBuf.drop (idx + 2) } with hw1
        have hinv : Inv Handled none (w1.log (.handleLine a line)) :=
          (h.inv.modifyRead (·.preadBuf.drop (idx + 2))).log (by simp)
        have hlt := findCRLF_lt hidx
        rw [callHandler, if_pos (by exact h.pyHandles)]
        refine Ensures.bind (performAll_spares (hscript _) hinv) ?_
        rintro w2 ⟨hinv2, hsame, hlines⟩
        have hread : ReadsLines a w2 := ReadsLines.of_sameConn
          ⟨hinv, h.streams, h.handles, h.pyHandles, h.reading⟩ hinv2 hsame
        have hbuf : (w2.heap a).preadBuf = (w.heap a).preadBuf.drop (idx + 2) := by
          rw [hsame.preadBuf, TcpServer.log_heap, hw1, TcpServer.modify_heap_self]
        rw [← hbuf]
        refine (ih hread ?_).mono ?_ fun _ => id
        · rw [hbuf, List.length_drop]
          omega
        · rintro w3 ⟨h3, hlines3, hbuf3⟩
          refine ⟨h3, ?_, hbuf3⟩
          rw [hlines3, hlines, TcpServer.log_trace, linesOf_append, List.append_assoc]
          congr 1
          simp [linesOf, Obs.lineOf]

/-- The state in which `httpHandle::handle_read` starts. -/
def entered (a : Nat) (w : TcpServer HttpHandles) : TcpServer HttpHandles :=
  if a ∈ w.ext.handles then w else makeHandle a w

theorem readable_http (ha : a ∈ w.streams) (chunk : Bytes) :
    readable (httpServer script) w (a, chunk) =
      httpHandleRead script a (entered a (w.received a chunk)) := by
  rw [readable_eq]
  exact if_pos ha

theorem entered_heap : (entered a w).heap = w.heap := by
  unfold entered
  split <;> rfl

theorem entered_trace : Extends Obs.Silent w.trace (entered a w).trace := by
  unfold entered
  split
  · exact .refl _ _
  · exact .single (fun _ => ⟨rfl, rfl⟩) w.trace

theorem received_trace (chunk : Bytes) :
    Extends Obs.Silent w.trace (w.received a chunk).trace :=
  .single (fun _ => ⟨rfl, rfl⟩) w.trace

/-- Connection `a` has received `seen`, in line mode from the beginning: the
complete lines have been handed over, and the rest is in its buffer. -/
structure Lined (a : Nat) (seen : Bytes) (w : TcpServer HttpHandles) : Prop where
  inv : Inv Handled none w
  streams : a ∈ w.streams
  handled : a ∈ w.ext.handles → ReadsLines a w
  lines : linesOf a w.trace = (crlfLines.drain seen).1
  rest : (w.heap a).preadBuf = (crlfLines.drain seen).2

theorem readsLines_entered (hinv : Inv Handled none w) (ha : a ∈ w.streams)
    (hread : a ∈ w.ext.handles → ReadsLines a w) : ReadsLines a (entered a w) := by
  by_cases hmem : a ∈ w.ext.handles
  · rw [entered, if_pos hmem]
    exact hread hmem
  · rw [entered, if_neg hmem]
    refine ⟨inv_makeHandle hinv ha, ha, ?_, ?_, ?_⟩
    · exact Finset.mem_insert_self a _
    · exact Finset.mem_insert_self a _
    · simp [makeHandle]

theorem readable_lined (hscript : ∀ t, ∀ act ∈ script t, Spares a act) {seen : Bytes}
    (h : Lined a seen w) (chunk : Bytes) :
    Ensures (readable (httpServer script) w (a, chunk)) (Lined a (seen ++ chunk))
      (fun _ => False) := by
  have hrecv := h.inv.received h.streams chunk
  have hread : ReadsLines a (entered a (w.received a chunk)) :=
    readsLines_entered hrecv h.streams fun hmem =>
      ⟨hrecv, h.streams, hmem, (h.handled hmem).pyHandles, (h.handled hmem).reading⟩
  have hbuf : ((entered a (w.received a chunk)).heap a).preadBuf =
      (crlfLines.drain seen).2 ++ chunk := by
    rw [entered_heap, TcpServer.received_heap_self, h.rest]
  have htrace : linesOf a (entered a (w.received a chunk)).trace = (crlfLines.drain seen).1 := by
    rw [((received_trace chunk).trans entered_trace).linesOf_eq a, h.lines]
  have hdrain := crlfLines.drain_append seen chunk
  rw [readable_http h.streams, httpHandleRead, if_pos hread.reading]
  refine (lineLoop_lines hscript hread le_rfl).mono ?_ fun _ => id
  rintro w' ⟨hread', hlines, hrest⟩
  rw [hbuf] at hlines hrest
  refine ⟨hread'.inv, hread'.streams, fun _ => hread', ?_, ?_⟩
  · rw [hlines, htrace, hdrain]
  · rw [hrest, hdrain]

/-- A run over data of a connection that the script spares. -/
theorem readable_all_lined (hscript : ∀ t, ∀ act ∈ script t, Spares a act) {seen : Bytes}
    (h : Lined a seen w) (chunks : List Bytes) :
    Ensures (exec (readable (httpServer script)) w (chunks.map fun c => (a, c)))
      (Lined a (seen ++ chunks.flatten)) (fun _ => False) := by
  induction chunks generalizing w seen with
  | nil => simpa using h
  | cons chunk chunks ih =>
    have hstep := readable_lined hscript h chunk
    rw [List.map_cons, List.flatten_cons, ← List.append_assoc]
    cases hr : readable (httpServer script) w (a, chunk) with
    | error x => exact (hstep.of_error hr).elim
    | ok w1 =>
        rw [exec_cons_ok hr]
        exact ih (hstep.of_ok hr)

end HttpServer

end MixServer.Server
