import MixServer.Server.EndOfStream

/-!
The hand-over of an HTTP connection from lines to messages.

`httpHandle::handle_read` looks at `reading_line` once, before its loop, and
keeps reading lines when a callback changes the mode or closes the connection.
`handOver` is what a connection should be handed for a stream: lines up to the
first whose reaction switches or closes, then, after a switch, everything else
as messages. `arrive_spec` says exactly which dispatches keep to that.
-/

namespace MixServer.Server

open Lib Net
open Function (update)

/-- What ends line mode. -/
inductive Ending where
  /-- `reading_line` is set to False. -/
  | switch
  /-- The connection is closed. -/
  | close
deriving DecidableEq, Repr

/-- The reaction of a handler to a line: what it sends, and whether it goes on. -/
structure Reply where
  sends : List Bytes := []
  ending : Option Ending := none
deriving DecidableEq, Repr

/-- What the handler of connection `a` does to react so. -/
def Reply.actions (a : Nat) (r : Reply) : List Action :=
  r.sends.map (.send a) ++
    match r.ending with
    | none => []
    | some .switch => [.setReadingLine a false]
    | some .close => [.close a]

/-- A handler of connection `a`: `react` says how it reacts to a line, given all
lines so far, and `answer` what it sends for a message. -/
def handlerScript (a : Nat) (react : List Bytes → Reply) (answer : List Bytes → List Bytes) :
    Script := fun t =>
  match t.getLast? with
  | some (.handleLine b _) => if b = a then (react (linesOf a t)).actions a else []
  | some (.handleMessage b _) => if b = a then (answer (messagesOf a t)).map (.send a) else []
  | _ => []

/-- What a connection should be handed of the stream `s`, when `past` are the
lines before it. -/
def handOver (react : List Bytes → Reply) (past : List Bytes) (s : Bytes) :
    Splitter.Drained UInt8 Bytes Ending :=
  crlfLines.drainUntil (fun lines => (react lines).ending) past s

/-- What the reactions to `lines` send, when `past` are the lines before them. -/
def sentFor (react : List Bytes → Reply) (past : List Bytes) : List Bytes → Bytes
  | [] => []
  | line :: lines =>
      (react (past ++ [line])).sends.flatten ++ sentFor react (past ++ [line]) lines

/-- A READ dispatch reaches a connection as long as it is in `streams`. -/
def arrive {ε : Type} (C : ServerClass ε) (a : Nat) (w : TcpServer ε) (chunk : Bytes) :
    Except Crash (TcpServer ε) :=
  if a ∈ w.streams then readable C w (a, chunk) else .ok w

namespace HttpServer

variable {react : List Bytes → Reply} {answer : List Bytes → List Bytes}
variable {w w' : TcpServer HttpHandles} {a : Nat}

/-! ### Sending -/

/-- Connection `a` has sent `p`, and nothing else has changed for it. -/
structure Sent (a : Nat) (p : Bytes) (w w' : TcpServer HttpHandles) : Prop where
  inv : Inv Handled none w'
  streams : w'.streams = w.streams
  ext : w'.ext = w.ext
  senders : w'.senders = w.senders
  trace : w'.trace = w.trace
  preadBuf : (w'.heap a).preadBuf = (w.heap a).preadBuf
  closing : (w'.heap a).closing = (w.heap a).closing
  closed : (w'.heap a).closed = (w.heap a).closed
  pwriteBuf : (w'.heap a).pwriteBuf = (w.heap a).pwriteBuf ++ p

theorem performSend_spec (h : Inv Handled none w) (ha : a ∈ w.streams) (hA : a ∈ w.ext.handles)
    (hs : (w.senders a).isSome = true) (p : Bytes) :
    ∃ w', (Action.send a p).perform closeConnect w = .ok w' ∧ Sent a p w w' := by
  have hinv := h.send (E := fun _ => False) ha hA p
  have hheld : (w.senders a).isSome ∧ a ∈ w.streams := ⟨hs, ha⟩
  simp only [Action.perform, if_pos hheld]
  rw [h.send_eq ha] at hinv ⊢
  exact ⟨_, rfl, hinv, rfl, rfl, rfl, rfl, by simp, by simp, by simp, by simp⟩

theorem performSends_spec (h : Inv Handled none w) (ha : a ∈ w.streams) (hA : a ∈ w.ext.handles)
    (hs : (w.senders a).isSome = true) (ps : List Bytes) :
    ∃ w', exec (Action.perform closeConnect) w (ps.map (.send a)) = .ok w' ∧
      Sent a ps.flatten w w' := by
  induction ps generalizing w with
  | nil => exact ⟨w, rfl, h, rfl, rfl, rfl, rfl, rfl, rfl, rfl, by simp⟩
  | cons p ps ih =>
    obtain ⟨w1, hp, h1⟩ := performSend_spec h ha hA hs p
    obtain ⟨w2, hps, h2⟩ := ih h1.inv (h1.streams ▸ ha) (h1.ext ▸ hA) (h1.senders ▸ hs)
    refine ⟨w2, by rw [List.map_cons, exec_cons_ok hp, hps], h2.inv, ?_, ?_, ?_, ?_, ?_, ?_, ?_, ?_⟩
    · rw [h2.streams, h1.streams]
    · rw [h2.ext, h1.ext]
    · rw [h2.senders, h1.senders]
    · rw [h2.trace, h1.trace]
    · rw [h2.preadBuf, h1.preadBuf]
    · rw [h2.closing, h1.closing]
    · rw [h2.closed, h1.closed]
    · rw [h2.pwriteBuf, h1.pwriteBuf, List.flatten_cons, List.append_assoc]

/-! ### Closing -/

/-- A close of a connection with nothing unsent tears it down at once. -/
theorem performClose_drained (h : Inv Handled none w) (ha : a ∈ w.streams)
    (hA : a ∈ w.ext.handles) (hs : w.senders a = some {}) (hopen : (w.heap a).closing = false)
    (hopen' : (w.heap a).closed = false) (hnil : (w.heap a).pwriteBuf = []) :
    ∃ w', (Action.close a).perform closeConnect w = .ok w' ∧ Inv Handled none w' ∧
      a ∉ w'.streams ∧ a ∉ w'.ext.pyHandles ∧ Extends Obs.Silent w.trace w'.trace := by
  have hinv := h.perform (E := fun _ => False) closes_http (.close a)
  have htrace := adds_perform appends_closeConnect_silent w (.close a)
  have hclosing := (h.idle (some a)).setClosing (a := a) hA
  have heq : (Action.close a).perform closeConnect w =
      .ok (PySender.modify a (fun s => { s with closed := true })
        ((tearDown (w.modify a fun s => { s with closing := true }) a).modify a
          fun s => { s with closed := true })) := by
    simp only [Action.perform, hs, PySender.getClosed, hopen, hopen', Bool.or_self,
      Bool.false_eq_true, if_false, PySender.close, TcpStream.close, TcpServer.modify_heap_self,
      hnil, if_true]
    rw [closeConnect_eq hclosing ha (by simp) hA]
    rfl
  rw [heq] at hinv htrace ⊢
  exact ⟨_, rfl, hinv, by simp [PySender.modify, tearDown], by simp [PySender.modify, tearDown],
    htrace⟩

/-- With unsent bytes the connection is only marked. -/
theorem performClose_unsent (h : Inv Handled none w) (hs : w.senders a = some {})
    (hopen : (w.heap a).closing = false) (hopen' : (w.heap a).closed = false)
    (hne : (w.heap a).pwriteBuf ≠ []) :
    ∃ w', (Action.close a).perform closeConnect w = .ok w' ∧ Inv Handled none w' ∧
      w'.streams = w.streams ∧ w'.ext = w.ext ∧ w'.trace = w.trace ∧
      w'.senders a = some { closed := true } ∧ (w'.heap a).closing = true ∧
      (w'.heap a).preadBuf = (w.heap a).preadBuf := by
  have hinv := h.perform (E := fun _ => False) closes_http (.close a)
  have heq : (Action.close a).perform closeConnect w =
      .ok (PySender.modify a (fun s => { s with closed := true })
        (w.modify a fun s => { s with closing := true })) := by
    simp only [Action.perform, hs, PySender.getClosed, hopen, hopen', Bool.or_self,
      Bool.false_eq_true, if_false, PySender.close, TcpStream.close, TcpServer.modify_heap_self,
      hne]
    rfl
  rw [heq] at hinv ⊢
  exact ⟨_, rfl, hinv, rfl, rfl, rfl, by simp [PySender.modify, hs],
    by simp [PySender.modify], by simp [PySender.modify]⟩

/-! ### The states of a connection -/

/-- Connection `a` is in `streams` and has a handler. -/
structure Served (a : Nat) (w : TcpServer HttpHandles) : Prop where
  inv : Inv Handled none w
  streams : a ∈ w.streams
  handles : a ∈ w.ext.handles
  pyHandles : a ∈ w.ext.pyHandles

theorem Served.sent {p : Bytes} (h : Served a w) (hsent : Sent a p w w') : Served a w' where
  inv := hsent.inv
  streams := hsent.streams ▸ h.streams
  handles := hsent.ext ▸ h.handles
  pyHandles := hsent.ext ▸ h.pyHandles

theorem Served.modifyRead (h : Served a w) (f : TcpStream → Bytes) :
    Served a (w.modify a fun s => { s with preadBuf := f s }) :=
  ⟨h.inv.modifyRead f, h.streams, h.handles, h.pyHandles⟩

theorem Served.received (h : Served a w) (chunk : Bytes) : Served a (w.received a chunk) :=
  ⟨h.inv.received h.streams chunk, h.streams, h.handles, h.pyHandles⟩

/-- Line mode: `past` has been handed over. -/
structure InLines (a : Nat) (past : List Bytes) (w : TcpServer HttpHandles) : Prop
    extends Served a w where
  sender : w.senders a = some {}
  closing : (w.heap a).closing = false
  closed : (w.heap a).closed = false
  handed : handedTo a w.trace = past.map (.handleLine a)

theorem InLines.modifyRead {past : List Bytes} (h : InLines a past w) (f : TcpStream → Bytes) :
    InLines a past (w.modify a fun s => { s with preadBuf := f s }) := by
  refine ⟨h.toServed.modifyRead f, h.sender, ?_, ?_, h.handed⟩
  · rw [TcpServer.modify_heap_self]
    exact h.closing
  · rw [TcpServer.modify_heap_self]
    exact h.closed

/-- Message mode. -/
structure Switched (a : Nat) (w : TcpServer HttpHandles) : Prop extends Served a w where
  sender : w.senders a = some { readingLine := false }
  preadBuf : (w.heap a).preadBuf = []

/-- The script has closed the connection, which waits for unsent bytes. -/
structure Deferred (a : Nat) (w : TcpServer HttpHandles) : Prop extends Served a w where
  sender : w.senders a = some { closed := true }
  closing : (w.heap a).closing = true
  preadBuf : findCRLF (w.heap a).preadBuf = none

/-- Where the line loop should leave the connection: `past` and what `d` found
has been handed over, and the reason it stopped for has taken effect. -/
structure LinesEnd (a : Nat) (past : List Bytes) (d : Splitter.Drained UInt8 Bytes Ending)
    (w : TcpServer HttpHandles) : Prop where
  handed : handedTo a w.trace = (past ++ d.items).map (.handleLine a)
  settled : match d.stop with
    | none => InLines a (past ++ d.items) w ∧ (w.heap a).preadBuf = d.rest
    | some .switch => Switched a w ∧ d.rest = []
    | some .close => a ∉ w.streams ∨ Deferred a w

/-- What must not happen: a line too many, or bytes left waiting after a switch. -/
def Overrun (a : Nat) (past : List Bytes) (d : Splitter.Drained UInt8 Bytes Ending)
    (w : TcpServer HttpHandles) : Prop :=
  (∃ line, (past ++ d.items ++ [line]).map (.handleLine a) <+: handedTo a w.trace) ∨
    (d.stop = some .switch ∧ (w.heap a).preadBuf ≠ [])

/-- The line loop does what it should when nothing follows a switch, and when a
close tears the connection down at once or no complete line follows it. -/
def Fits (react : List Bytes → Reply) (past : List Bytes)
    (d : Splitter.Drained UInt8 Bytes Ending) (unsent : Bytes) : Prop :=
  match d.stop with
  | none => True
  | some .switch => d.rest = []
  | some .close => unsent ++ sentFor react past d.items = [] ∨ findCRLF d.rest = none

theorem linesOf_of_handed {t : List Obs} {lines messages : List Bytes}
    (h : handedTo a t = lines.map (.handleLine a) ++ messages.map (.handleMessage a)) :
    linesOf a t = lines := by
  rw [← linesOf_handedTo, h, linesOf_append, linesOf, linesOf, List.filterMap_map,
    List.filterMap_map]
  simp [Function.comp_def, Obs.lineOf]

theorem messagesOf_of_handed {t : List Obs} {lines : List Bytes}
    (h : handedTo a t = lines.map (.handleLine a)) : messagesOf a t = [] := by
  rw [← messagesOf_handedTo, h, messagesOf, List.filterMap_map]
  simp [Function.comp_def, Obs.messageOf]

theorem InLines.lines_eq {past : List Bytes} (h : InLines a past w) : linesOf a w.trace = past := by
  have hhanded : handedTo a w.trace =
      past.map (.handleLine a) ++ ([] : List Bytes).map (.handleMessage a) := by
    rw [h.handed, List.map_nil, List.append_nil]
  exact linesOf_of_handed hhanded

/-! ### The line loop -/

/-- As long as the connection has a handler, a complete line is handed over. -/
theorem lineLoop_more {script : Script} (h : Served a w) {turns : Nat}
    (hmore : findCRLF (w.heap a).preadBuf ≠ none) (hturns : (w.heap a).preadBuf.length ≤ turns) :
    Ensures (lineLoop script a turns w)
      (fun w' => ∃ line, handedTo a w.trace ++ [.handleLine a line] <+: handedTo a w'.trace)
      (fun _ => False) := by
  obtain ⟨idx, hidx⟩ := Option.ne_none_iff_exists'.mp hmore
  have hlt := findCRLF_lt hidx
  have hpos : 0 < turns := by omega
  have hfirst := lineLoop_first script h.pyHandles hidx hpos
  refine ((inv_lineLoop (E := fun _ => False) h.inv turns).and hfirst).mono ?_ fun _ hx => hx.1
  rintro w' ⟨-, hext⟩
  have hpre : handedTo a (w.trace ++ [.handleLine a ((w.heap a).preadBuf.take idx)]) <+:
      handedTo a w'.trace := hext.filterMap_prefix (Obs.handedOf a)
  rw [handedTo_append, handedTo_line] at hpre
  exact ⟨_, hpre⟩

/-- One call of `handle_line`: the reply is sent, then the mode may end. -/
theorem callHandler_line (react : List Bytes → Reply) (answer : List Bytes → List Bytes)
    {past : List Bytes} (h : InLines a past w) (line : Bytes) :
    ∃ w1, Sent a (react (past ++ [line])).sends.flatten (w.log (.handleLine a line)) w1 ∧
      InLines a (past ++ [line]) w1 ∧
      callHandler (handlerScript a react answer) a (.handleLine a line) w =
        exec (Action.perform closeConnect) w1
          (match (react (past ++ [line])).ending with
            | none => []
            | some .switch => [.setReadingLine a false]
            | some .close => [.close a]) := by
  have hlog : Served a (w.log (.handleLine a line)) :=
    ⟨h.inv.log (by simp), h.streams, h.handles, h.pyHandles⟩
  obtain ⟨w1, hexec, hsent⟩ := performSends_spec hlog.inv h.streams h.handles (by simp [h.sender])
    (react (past ++ [line])).sends
  refine ⟨w1, hsent, ⟨hlog.sent hsent, ?_, ?_, ?_, ?_⟩, ?_⟩
  · rw [hsent.senders]
    exact h.sender
  · rw [hsent.closing]
    exact h.closing
  · rw [hsent.closed]
    exact h.closed
  · rw [hsent.trace, TcpServer.log_trace, handedTo_append, h.handed, handedTo_line, List.map_append]
    rfl
  · have hlines : linesOf a (w.log (.handleLine a line)).trace = past ++ [line] := by
      rw [TcpServer.log_trace, linesOf_append, h.lines_eq]
      simp [linesOf, Obs.lineOf]
    have hscript : handlerScript a react answer (w.log (.handleLine a line)).trace =
        (react (past ++ [line])).actions a := by
      rw [handlerScript, hlines, TcpServer.log_trace, List.getLast?_concat]
      simp
    rw [callHandler, if_pos h.pyHandles, Script.call, hscript, Reply.actions, exec_append, hexec]
    rfl

/-- After a switch: the loop goes on reading lines, so nothing may follow. -/
theorem lineLoop_switched (script : Script) {past : List Bytes} {line rest : Bytes}
    (h : InLines a (past ++ [line]) w) (hbuf : (w.heap a).preadBuf = rest) {turns : Nat}
    (hturns : rest.length ≤ turns) :
    Ensures
      (lineLoop script a turns (PySender.modify a (fun s => { s with readingLine := false }) w))
      (fun w' => (rest = [] → LinesEnd a past ⟨[line], rest, some .switch⟩ w') ∧
        (rest ≠ [] → Overrun a past ⟨[line], rest, some .switch⟩ w'))
      (fun _ => False) := by
  have hserved : Served a (PySender.modify a (fun s => { s with readingLine := false }) w) :=
    ⟨h.inv.modifySender _ a, h.streams, h.handles, h.pyHandles⟩
  have hhanded : handedTo a (PySender.modify a (fun s => { s with readingLine := false }) w).trace =
      (past ++ [line]).map (.handleLine a) := h.handed
  cases hrest : findCRLF rest with
  | none =>
      rw [lineLoop_none (by rw [← hrest, ← hbuf]; rfl), ensures_ok]
      constructor
      · intro hnil
        refine ⟨h.handed, ⟨hserved, ?_, ?_⟩, hnil⟩
        · simp [PySender.modify, h.sender]
        · rw [← hnil, ← hbuf]
          rfl
      · intro hne
        rw [← hbuf] at hne
        exact .inr ⟨rfl, hne⟩
  | some idx =>
      have hmore : findCRLF rest ≠ none := by simp [hrest]
      have hlt := findCRLF_lt hrest
      rw [← hbuf] at hmore hturns
      refine (lineLoop_more hserved hmore hturns).mono ?_ fun _ => id
      rintro w' ⟨line', hpre⟩
      constructor
      · intro hnil
        simp [hnil] at hlt
      · intro _
        refine .inl ⟨line', ?_⟩
        rw [List.map_append]
        rwa [hhanded] at hpre

/-- After a close: with nothing unsent the connection is gone, otherwise the
handler stays and would be handed a further line. -/
theorem lineLoop_closed (script : Script) {past : List Bytes} {line rest : Bytes}
    (h : InLines a (past ++ [line]) w) (hbuf : (w.heap a).preadBuf = rest) {turns : Nat}
    (hturns : rest.length ≤ turns) :
    Ensures ((Action.close a).perform closeConnect w >>= lineLoop script a turns)
      (fun w' => ((w.heap a).pwriteBuf = [] ∨ findCRLF rest = none →
          LinesEnd a past ⟨[line], rest, some .close⟩ w') ∧
        (¬ ((w.heap a).pwriteBuf = [] ∨ findCRLF rest = none) →
          Overrun a past ⟨[line], rest, some .close⟩ w'))
      (fun _ => False) := by
  by_cases hnil : (w.heap a).pwriteBuf = []
  · obtain ⟨w1, hperform, hinv, hgone, hpy, hsilent⟩ := performClose_drained h.inv h.streams
      h.handles h.sender h.closing h.closed hnil
    obtain ⟨buf, hloop⟩ := lineLoop_torn script hpy turns
    rw [hperform, ok_bind, hloop, ensures_ok]
    constructor
    · intro _
      refine ⟨?_, .inl hgone⟩
      rw [TcpServer.modify_trace, hsilent.handedTo_eq a, h.handed]
    · intro hn
      exact absurd (.inl hnil) hn
  · obtain ⟨w1, hperform, hinv, hstreams, hext, htrace, hsender, hclosing, hread⟩ :=
      performClose_unsent h.inv h.sender h.closing h.closed hnil
    have hserved : Served a w1 :=
      ⟨hinv, hstreams ▸ h.streams, hext ▸ h.handles, hext ▸ h.pyHandles⟩
    have hbuf1 : (w1.heap a).preadBuf = rest := hread.trans hbuf
    have hhanded : handedTo a w1.trace = (past ++ [line]).map (.handleLine a) := by
      rw [htrace, h.handed]
    rw [hperform, ok_bind]
    by_cases hrest : findCRLF rest = none
    · rw [lineLoop_none (hbuf1 ▸ hrest), ensures_ok]
      constructor
      · intro _
        exact ⟨hhanded, .inr ⟨hserved, hsender, hclosing, hbuf1 ▸ hrest⟩⟩
      · intro hn
        exact absurd (.inr hrest) hn
    · rw [← hbuf1] at hturns
      refine (lineLoop_more hserved (hbuf1 ▸ hrest) hturns).mono ?_ fun _ => id
      rintro w' ⟨line', hpre⟩
      constructor
      · intro hor
        exact (hor.elim hnil hrest).elim
      · intro _
        refine .inl ⟨line', ?_⟩
        rw [List.map_append]
        rwa [hhanded] at hpre

theorem handOver_none {past : List Bytes} {buf : Bytes} (h : findCRLF buf = none) :
    handOver react past buf = ⟨[], buf, none⟩ :=
  Splitter.drainUntil_of_none (crlfLines_next_of_none h)

theorem handOver_stop {past : List Bytes} {buf : Bytes} {idx : Nat} {e : Ending}
    (h : findCRLF buf = some idx) (hend : (react (past ++ [buf.take idx])).ending = some e) :
    handOver react past buf = ⟨[buf.take idx], buf.drop (idx + 2), some e⟩ :=
  Splitter.drainUntil_of_stop (crlfLines_next_of_some h) hend

theorem handOver_go {past : List Bytes} {buf : Bytes} {idx : Nat}
    (h : findCRLF buf = some idx) (hend : (react (past ++ [buf.take idx])).ending = none) :
    handOver react past buf =
      ⟨buf.take idx :: (handOver react (past ++ [buf.take idx]) (buf.drop (idx + 2))).items,
        (handOver react (past ++ [buf.take idx]) (buf.drop (idx + 2))).rest,
        (handOver react (past ++ [buf.take idx]) (buf.drop (idx + 2))).stop⟩ :=
  Splitter.drainUntil_of_go (crlfLines_next_of_some h) hend

/-- A loop that finds no line ends where it started. -/
theorem InLines.linesEnd {past : List Bytes} (h : InLines a past w) {rest : Bytes}
    (hbuf : (w.heap a).preadBuf = rest) : LinesEnd a past ⟨[], rest, none⟩ w := by
  refine ⟨?_, ?_, hbuf⟩
  · rw [List.append_nil, h.handed]
  · rwa [List.append_nil]

theorem LinesEnd.cons {past : List Bytes} {line : Bytes}
    {d : Splitter.Drained UInt8 Bytes Ending} (h : LinesEnd a (past ++ [line]) d w) :
    LinesEnd a past ⟨line :: d.items, d.rest, d.stop⟩ w := by
  obtain ⟨items, rest, stop⟩ := d
  obtain ⟨hhanded, hsettled⟩ := h
  rw [List.append_assoc, List.singleton_append] at hhanded
  refine ⟨hhanded, ?_⟩
  cases stop with
  | none =>
      dsimp only at hsettled ⊢
      rwa [List.append_assoc, List.singleton_append] at hsettled
  | some e =>
      cases e with
      | switch => exact hsettled
      | close => exact hsettled

theorem Overrun.cons {past : List Bytes} {line : Bytes}
    {d : Splitter.Drained UInt8 Bytes Ending} (h : Overrun a (past ++ [line]) d w) :
    Overrun a past ⟨line :: d.items, d.rest, d.stop⟩ w := by
  rcases h with ⟨line', hpre⟩ | hleft
  · refine .inl ⟨line', ?_⟩
    simpa only [List.append_assoc, List.singleton_append, List.cons_append, List.nil_append]
      using hpre
  · exact .inr hleft

theorem fits_cons {past : List Bytes} {line : Bytes}
    {d : Splitter.Drained UInt8 Bytes Ending} {unsent : Bytes} :
    Fits react past ⟨line :: d.items, d.rest, d.stop⟩ unsent ↔
      Fits react (past ++ [line]) d (unsent ++ (react (past ++ [line])).sends.flatten) := by
  obtain ⟨items, rest, stop⟩ := d
  cases stop with
  | none => exact Iff.rfl
  | some e =>
      cases e with
      | switch => exact Iff.rfl
      | close => simp only [Fits, sentFor, List.append_assoc]

/-- **The line loop.** It hands over what it should exactly when what follows the
stop fits; otherwise it overruns. -/
theorem lineLoop_handOver {past : List Bytes} (h : InLines a past w) {turns : Nat}
    (hturns : (w.heap a).preadBuf.length ≤ turns) :
    Ensures (lineLoop (handlerScript a react answer) a turns w)
      (fun w' =>
        (Fits react past (handOver react past (w.heap a).preadBuf) (w.heap a).pwriteBuf →
          LinesEnd a past (handOver react past (w.heap a).preadBuf) w') ∧
        (¬ Fits react past (handOver react past (w.heap a).preadBuf) (w.heap a).pwriteBuf →
          Overrun a past (handOver react past (w.heap a).preadBuf) w'))
      (fun _ => False) := by
  induction turns generalizing w past with
  | zero =>
    have hnil : (w.heap a).preadBuf = [] := List.length_eq_zero_iff.mp (Nat.le_zero.mp hturns)
    rw [hnil, handOver_none rfl, lineLoop, ensures_ok]
    exact ⟨fun _ => h.linesEnd hnil, fun hn => absurd trivial hn⟩
  | succ turns ih =>
    cases hidx : findCRLF (w.heap a).preadBuf with
    | none =>
        rw [handOver_none hidx, lineLoop_none hidx, ensures_ok]
        exact ⟨fun _ => h.linesEnd rfl, fun hn => absurd trivial hn⟩
    | some idx =>
        have hlt := findCRLF_lt hidx
        set buf := (w.heap a).preadBuf with hbufdef
        set line := buf.take idx with hline
        set rest := buf.drop (idx + 2) with hrest
        have hrestlen : rest.length ≤ turns := by
          rw [hrest, List.length_drop]
          omega
        have htaken := h.modifyRead (·.preadBuf.drop (idx + 2))
        obtain ⟨w2, hsent, hlines, hcall⟩ := callHandler_line react answer htaken line
        have hbuf2 : (w2.heap a).preadBuf = rest := by
          rw [hsent.preadBuf, TcpServer.log_heap, TcpServer.modify_heap_self]
        have hwrite2 : (w2.heap a).pwriteBuf =
            (w.heap a).pwriteBuf ++ (react (past ++ [line])).sends.flatten := by
          rw [hsent.pwriteBuf, TcpServer.log_heap, TcpServer.modify_heap_self]
        simp only [lineLoop, ← hbufdef, hidx]
        rw [← hline, hcall]
        cases hend : (react (past ++ [line])).ending with
        | none =>
            rw [handOver_go hidx hend, fits_cons, ← hwrite2]
            dsimp only
            rw [exec_nil, ok_bind]
            refine (ih hlines (hbuf2 ▸ hrestlen)).mono ?_ fun _ => id
            rw [hbuf2]
            rintro w' ⟨hfits, hnot⟩
            exact ⟨fun hf => (hfits hf).cons, fun hn => (hnot hn).cons⟩
        | some e =>
            rw [handOver_stop hidx hend]
            cases e with
            | switch =>
                dsimp only
                rw [exec_singleton, Action.perform, ok_bind]
                exact lineLoop_switched _ hlines hbuf2 hrestlen
            | close =>
                dsimp only
                rw [exec_singleton]
                have hloop := lineLoop_closed (handlerScript a react answer) hlines hbuf2 hrestlen
                rw [hwrite2] at hloop
                simpa only [Fits, sentFor, List.append_nil] using hloop

/-! ### One dispatch -/

/-- Connection `a` has been handed exactly what it should be of the stream `s`:
the lines, then after a switch everything else, and nothing is left waiting. -/
structure Exact (react : List Bytes → Reply) (a : Nat) (s : Bytes)
    (w : TcpServer HttpHandles) : Prop where
  handed : handedTo a w.trace = (handOver react [] s).items.map (.handleLine a) ++
    (messagesOf a w.trace).map (.handleMessage a)
  messages : (messagesOf a w.trace).flatten =
    if (handOver react [] s).stop = some .switch then (handOver react [] s).rest else []
  drained : (handOver react [] s).stop = some .switch → (w.heap a).preadBuf = []

/-- `Exact`, and the state of the connection is the one its lines lead to. -/
structure Follows (react : List Bytes → Reply) (a : Nat) (s : Bytes)
    (w : TcpServer HttpHandles) : Prop where
  handed : handedTo a w.trace = (handOver react [] s).items.map (.handleLine a) ++
    (messagesOf a w.trace).map (.handleMessage a)
  phase : match (handOver react [] s).stop with
    | none => messagesOf a w.trace = [] ∧ Inv Handled none w ∧ a ∈ w.streams ∧
        (w.heap a).preadBuf = (handOver react [] s).rest ∧ (w.heap a).closed = false ∧
        (a ∈ w.ext.handles → InLines a (handOver react [] s).items w)
    | some .switch => Switched a w ∧
        (messagesOf a w.trace).flatten = (handOver react [] s).rest
    | some .close => messagesOf a w.trace = [] ∧ (a ∉ w.streams ∨ Deferred a w)

theorem Follows.exact {s : Bytes} (h : Follows react a s w) : Exact react a s w := by
  obtain ⟨hhanded, hphase⟩ := h
  refine ⟨hhanded, ?_, ?_⟩
  · cases hstop : (handOver react [] s).stop with
    | none =>
        rw [hstop] at hphase
        rw [hphase.1]
        simp
    | some e =>
        rw [hstop] at hphase
        cases e with
        | switch => simpa using hphase.2
        | close =>
            rw [hphase.1]
            simp
  · intro hstop
    rw [hstop] at hphase
    exact hphase.1.preadBuf

theorem Exact.lines_eq {s : Bytes} (h : Exact react a s w) :
    linesOf a w.trace = (handOver react [] s).items := linesOf_of_handed h.handed

/-- A line too many shows. -/
theorem Exact.not_overrun {s : Bytes} (h : Exact react a s w) {past : List Bytes}
    {d : Splitter.Drained UInt8 Bytes Ending}
    (hd : handOver react [] s = ⟨past ++ d.items, d.rest, d.stop⟩) : ¬ Overrun a past d w := by
  rintro (⟨line, hpre⟩ | ⟨hstop, hleft⟩)
  · have hle := (hpre.filterMap (Obs.lineOf a)).length_le
    have hlines : linesOf a (handedTo a w.trace) = past ++ d.items := by
      rw [linesOf_handedTo a, h.lines_eq, hd]
    rw [linesOf] at hlines
    rw [hlines] at hle
    simp [List.filterMap_map, Function.comp_def, Obs.lineOf] at hle
  · exact hleft (h.drained (by rw [hd, hstop]))

/-- The dispatch keeps to the hand-over: in message mode it brings data, after a
deferred close it completes no line, and otherwise its lines fit. -/
def KeepsTo (react : List Bytes → Reply) (a : Nat) (w : TcpServer HttpHandles)
    (chunk : Bytes) : Prop :=
  a ∈ w.streams →
    if (w.senders a).all (·.readingLine) = false then (w.heap a).preadBuf ++ chunk ≠ []
    else if (w.heap a).closing = true then findCRLF ((w.heap a).preadBuf ++ chunk) = none
    else
      Fits react (linesOf a w.trace)
        (handOver react (linesOf a w.trace) ((w.heap a).preadBuf ++ chunk)) (w.heap a).pwriteBuf

theorem handOver_append_of_go {s : Bytes} (chunk : Bytes)
    (h : (handOver react [] s).stop = none) :
    handOver react [] (s ++ chunk) =
      let d := handOver react [] s
      let d' := handOver react d.items (d.rest ++ chunk)
      ⟨d.items ++ d'.items, d'.rest, d'.stop⟩ :=
  Splitter.drainUntil_append_of_go chunk h

theorem handOver_append_of_stop {s : Bytes} (chunk : Bytes) {e : Ending}
    (h : (handOver react [] s).stop = some e) :
    handOver react [] (s ++ chunk) =
      ⟨(handOver react [] s).items, (handOver react [] s).rest ++ chunk, some e⟩ :=
  Splitter.drainUntil_append_of_stop chunk h

/-- The end of the line loop, as seen from the whole stream. -/
theorem LinesEnd.follows {s : Bytes} {past : List Bytes}
    {d : Splitter.Drained UInt8 Bytes Ending} (h : LinesEnd a past d w)
    (hd : handOver react [] s = ⟨past ++ d.items, d.rest, d.stop⟩) : Follows react a s w := by
  obtain ⟨items, rest, stop⟩ := d
  obtain ⟨hhanded, hsettled⟩ := h
  have hmessages := messagesOf_of_handed hhanded
  refine ⟨?_, ?_⟩ <;> rw [hd, hmessages]
  · rw [hhanded, List.map_nil, List.append_nil]
  · cases stop with
    | none =>
        obtain ⟨hin, hbuf⟩ := hsettled
        exact ⟨rfl, hin.inv, hin.streams, hbuf, hin.closed, fun _ => hin⟩
    | some e =>
        cases e with
        | switch =>
            obtain ⟨hsw, hrest⟩ := hsettled
            exact ⟨hsw, hrest.symm⟩
        | close => exact ⟨rfl, hsettled⟩

/-- Before the first line of a connection nothing has closed or switched it. -/
theorem open_of_lines {past : List Bytes} (hinv : Inv Handled none w) (ha : a ∈ w.streams)
    (hin : a ∈ w.ext.handles → InLines a past w) :
    (w.heap a).closing = false ∧ (w.senders a).all (·.readingLine) = true := by
  by_cases hmem : a ∈ w.ext.handles
  · have h := hin hmem
    exact ⟨h.closing, by simp [h.sender]⟩
  · constructor
    · by_contra hclosing
      rw [Bool.not_eq_false] at hclosing
      exact hmem (hinv.owned a ha (.inl hclosing))
    · cases hs : w.senders a with
      | none => rfl
      | some s => exact absurd (hinv.owned a ha (.inr (.inr (by simp [hs])))) hmem

/-- Line mode: the state in which the loop starts. -/
theorem inLines_entered {past : List Bytes} (hinv : Inv Handled none w) (ha : a ∈ w.streams)
    (hclosed : (w.heap a).closed = false)
    (hhanded : handedTo a w.trace = past.map (.handleLine a))
    (hin : a ∈ w.ext.handles → InLines a past w) (chunk : Bytes) :
    InLines a past (entered a (w.received a chunk)) := by
  have hrecv := hinv.received ha chunk
  have htrace : handedTo a (entered a (w.received a chunk)).trace = past.map (.handleLine a) := by
    rw [((received_trace chunk).trans entered_trace).handedTo_eq a, hhanded]
  by_cases hmem : a ∈ w.ext.handles
  · have hent : entered a (w.received a chunk) = w.received a chunk := if_pos hmem
    have h := hin hmem
    rw [hent] at htrace ⊢
    refine ⟨h.toServed.received chunk, h.sender, ?_, ?_, htrace⟩
    · rw [TcpServer.received_heap_self]
      exact h.closing
    · rw [TcpServer.received_heap_self]
      exact hclosed
  · have hent : entered a (w.received a chunk) = makeHandle a (w.received a chunk) := if_neg hmem
    rw [hent] at htrace ⊢
    have hmake := inv_makeHandle hrecv ha
    refine ⟨⟨hmake, ha, Finset.mem_insert_self a _, Finset.mem_insert_self a _⟩, ?_, ?_, ?_, htrace⟩
    · simp [makeHandle]
    · simpa [makeHandle] using (open_of_lines hinv ha hin).1
    · simpa [makeHandle] using hclosed

/-- A dispatch of a connection in line mode. -/
theorem arrive_lines {s : Bytes} (h : Follows react a s w)
    (hstop : (handOver react [] s).stop = none) (chunk : Bytes) :
    Ensures (arrive (httpServer (handlerScript a react answer)) a w chunk)
      (fun w' => (KeepsTo react a w chunk → Follows react a (s ++ chunk) w') ∧
        (¬ KeepsTo react a w chunk → ¬ Exact react a (s ++ chunk) w'))
      (fun _ => False) := by
  obtain ⟨hhanded, hphase⟩ := h
  have hlines := linesOf_of_handed hhanded
  rw [hstop] at hphase
  obtain ⟨hmessages, hinv, ha, hbuf, hclosed, hin⟩ := hphase
  rw [hmessages, List.map_nil, List.append_nil] at hhanded
  have hstart := inLines_entered hinv ha hclosed hhanded hin chunk
  have hheap : ((entered a (w.received a chunk)).heap a) =
      { w.heap a with preadBuf := (handOver react [] s).rest ++ chunk } := by
    rw [entered_heap, TcpServer.received_heap_self, hbuf]
  have hd := handOver_append_of_go chunk hstop
  have hkeeps : KeepsTo react a w chunk ↔
      Fits react (handOver react [] s).items
        (handOver react (handOver react [] s).items ((handOver react [] s).rest ++ chunk))
        (w.heap a).pwriteBuf := by
    obtain ⟨hclosing, hreading⟩ := open_of_lines hinv ha hin
    simp [KeepsTo, ha, hclosing, hreading, hlines, hbuf]
  rw [arrive, if_pos ha, readable_http ha, httpHandleRead, if_pos (by simp [hstart.sender])]
  refine (lineLoop_handOver hstart le_rfl).mono ?_ fun _ => id
  rw [hheap, hkeeps]
  rintro w' ⟨hfits, hnot⟩
  exact ⟨fun hf => (hfits hf).follows hd, fun hn hexact => hexact.not_overrun hd (hnot hn)⟩

/-- One call of `handle_message`. -/
theorem callHandler_message (react : List Bytes → Reply) (answer : List Bytes → List Bytes)
    (h : Switched a w) (p : Bytes) :
    ∃ w1, callHandler (handlerScript a react answer) a (.handleMessage a p) w = .ok w1 ∧
      Switched a w1 ∧ w1.trace = w.trace ++ [.handleMessage a p] := by
  have hlog : Served a (w.log (.handleMessage a p)) :=
    ⟨h.inv.log (by simp), h.streams, h.handles, h.pyHandles⟩
  have hscript : handlerScript a react answer (w.log (.handleMessage a p)).trace =
      (answer (messagesOf a (w.log (.handleMessage a p)).trace)).map (.send a) := by
    rw [handlerScript, TcpServer.log_trace, List.getLast?_concat]
    simp
  obtain ⟨w1, hexec, hsent⟩ := performSends_spec hlog.inv h.streams h.handles (by simp [h.sender])
    (answer (messagesOf a (w.log (.handleMessage a p)).trace))
  refine ⟨w1, ?_, ⟨hlog.sent hsent, ?_, ?_⟩, hsent.trace⟩
  · rw [callHandler, if_pos h.pyHandles, Script.call, hscript, hexec]
  · rw [hsent.senders]
    exact h.sender
  · rw [hsent.preadBuf]
    exact h.preadBuf

/-- A dispatch of a connection in message mode. -/
theorem arrive_switched {s : Bytes} (h : Follows react a s w)
    (hstop : (handOver react [] s).stop = some .switch) (chunk : Bytes) :
    (KeepsTo react a w chunk →
      Ensures (arrive (httpServer (handlerScript a react answer)) a w chunk)
        (Follows react a (s ++ chunk)) (fun _ => False)) ∧
    (¬ KeepsTo react a w chunk →
      ¬ Ensures (arrive (httpServer (handlerScript a react answer)) a w chunk)
        (Exact react a (s ++ chunk)) (fun _ => False)) := by
  obtain ⟨hhanded, hphase⟩ := h
  rw [hstop] at hphase
  obtain ⟨hsw, hmessages⟩ := hphase
  have hent : entered a (w.received a chunk) = w.received a chunk := if_pos hsw.handles
  have hbuf : ((w.received a chunk).heap a).preadBuf = chunk := by
    rw [TcpServer.received_heap_self, hsw.preadBuf, List.nil_append]
  have hkeeps : KeepsTo react a w chunk ↔ chunk ≠ [] := by
    simp [KeepsTo, hsw.streams, hsw.sender, hsw.preadBuf]
  rw [hkeeps, arrive, if_pos hsw.streams, readable_http hsw.streams, hent, httpHandleRead,
    if_neg (by simp [hsw.sender]), hbuf]
  constructor
  · intro hne
    rw [if_neg hne]
    have hdrained : Switched a
        ((w.received a chunk).modify a fun s => { s with preadBuf := [] }) := by
      refine ⟨(hsw.toServed.received chunk).modifyRead fun _ => [], hsw.sender, ?_⟩
      rw [TcpServer.modify_heap_self]
    obtain ⟨w1, hcall, hsw1, htrace⟩ := callHandler_message react answer hdrained chunk
    have hsilent : handedTo a (w.received a chunk).trace = handedTo a w.trace :=
      (received_trace chunk).handedTo_eq a
    have hquiet : messagesOf a (w.received a chunk).trace = messagesOf a w.trace :=
      (received_trace chunk).messagesOf_eq a
    have hmessage : messagesOf a w1.trace = messagesOf a w.trace ++ [chunk] := by
      rw [htrace, TcpServer.modify_trace, messagesOf_append, hquiet]
      simp [messagesOf, Obs.messageOf]
    rw [hcall, ensures_ok]
    refine ⟨?_, ?_⟩ <;> rw [handOver_append_of_stop chunk hstop, hmessage]
    · rw [htrace, TcpServer.modify_trace, handedTo_append, hsilent, hhanded, handedTo_message,
        List.map_append, List.append_assoc]
      rfl
    · refine ⟨hsw1, ?_⟩
      rw [List.flatten_append, hmessages, List.flatten_singleton]
  · intro hnil
    rw [if_pos (not_not.mp hnil)]
    exact id

/-- A dispatch of a connection that the script has closed. -/
theorem arrive_closed {s : Bytes} (h : Follows react a s w)
    (hstop : (handOver react [] s).stop = some .close) (chunk : Bytes) :
    Ensures (arrive (httpServer (handlerScript a react answer)) a w chunk)
      (fun w' => (KeepsTo react a w chunk → Follows react a (s ++ chunk) w') ∧
        (¬ KeepsTo react a w chunk → ¬ Exact react a (s ++ chunk) w'))
      (fun _ => False) := by
  obtain ⟨hhanded, hphase⟩ := h
  rw [hstop] at hphase
  obtain ⟨hmessages, hphase⟩ := hphase
  have hd := handOver_append_of_stop chunk hstop
  rcases hphase with hgone | hdef
  · rw [arrive, if_neg hgone]
    constructor
    · intro _
      refine ⟨?_, ?_⟩ <;> rw [hd]
      · exact hhanded
      · exact ⟨hmessages, .inl hgone⟩
    · intro hn
      exact absurd (fun ha => absurd ha hgone) hn
  · have hent : entered a (w.received a chunk) = w.received a chunk := if_pos hdef.handles
    have hbuf : ((w.received a chunk).heap a).preadBuf = (w.heap a).preadBuf ++ chunk := by
      rw [TcpServer.received_heap_self]
    have hserved := hdef.toServed.received chunk
    have hsame : handedTo a (w.received a chunk).trace = handedTo a w.trace :=
      (received_trace chunk).handedTo_eq a
    have hkeeps : KeepsTo react a w chunk ↔ findCRLF ((w.heap a).preadBuf ++ chunk) = none := by
      simp [KeepsTo, hdef.streams, hdef.sender, hdef.closing]
    rw [hkeeps, arrive, if_pos hdef.streams, readable_http hdef.streams, hent, httpHandleRead,
      if_pos (by simp [hdef.sender])]
    by_cases hnone : findCRLF ((w.heap a).preadBuf ++ chunk) = none
    · rw [lineLoop_none (hbuf ▸ hnone), ensures_ok]
      have hmessage : messagesOf a (w.received a chunk).trace = [] :=
        ((received_trace chunk).messagesOf_eq a).trans hmessages
      constructor
      · intro _
        refine ⟨?_, ?_⟩ <;> rw [hd, hmessage]
        · rw [hsame, hhanded, hmessages]
        · refine ⟨rfl, .inr ⟨hserved, hdef.sender, ?_, hbuf ▸ hnone⟩⟩
          rw [TcpServer.received_heap_self]
          exact hdef.closing
      · intro hn
        exact absurd hnone hn
    · refine (lineLoop_more hserved (hbuf ▸ hnone) le_rfl).mono ?_ fun _ => id
      rintro w' ⟨line, hpre⟩
      constructor
      · intro hn
        exact absurd hn hnone
      · intro _ hexact
        have hover : Overrun a (handOver react [] s).items
            ⟨[], (handOver react [] s).rest ++ chunk, some .close⟩ w' := by
          refine .inl ⟨line, ?_⟩
          rw [hsame, hhanded, hmessages, List.map_nil, List.append_nil] at hpre
          rw [List.append_nil, List.map_append]
          exact hpre
        exact hexact.not_overrun (by rw [hd, List.append_nil]) hover

/-! ### Runs -/

theorem Unread.follows (h : Unread a w) : Follows react a [] w := by
  have hmessages : messagesOf a w.trace = [] := by
    rw [← messagesOf_handedTo, h.handed]
    rfl
  refine ⟨?_, ?_⟩ <;> rw [handOver_none rfl, hmessages]
  · exact h.handed
  · exact ⟨rfl, h.inv, h.streams, h.preadBuf, h.closed, fun hmem => absurd hmem h.handles⟩

theorem arrive_spec {s : Bytes} (h : Follows react a s w) (chunk : Bytes) :
    (KeepsTo react a w chunk →
      Ensures (arrive (httpServer (handlerScript a react answer)) a w chunk)
        (Follows react a (s ++ chunk)) (fun _ => False)) ∧
    (¬ KeepsTo react a w chunk →
      ¬ Ensures (arrive (httpServer (handlerScript a react answer)) a w chunk)
        (Exact react a (s ++ chunk)) (fun _ => False)) := by
  have hboth : ∀ r : Except Crash (TcpServer HttpHandles),
      Ensures r (fun w' => (KeepsTo react a w chunk → Follows react a (s ++ chunk) w') ∧
        (¬ KeepsTo react a w chunk → ¬ Exact react a (s ++ chunk) w')) (fun _ => False) →
      (KeepsTo react a w chunk → Ensures r (Follows react a (s ++ chunk)) (fun _ => False)) ∧
      (¬ KeepsTo react a w chunk →
        ¬ Ensures r (Exact react a (s ++ chunk)) (fun _ => False)) := by
    intro r hr
    cases r with
    | error x => exact hr.elim
    | ok w' => exact hr
  cases hstop : (handOver react [] s).stop with
  | none => exact hboth _ (arrive_lines h hstop chunk)
  | some e =>
      cases e with
      | switch => exact arrive_switched h hstop chunk
      | close => exact hboth _ (arrive_closed h hstop chunk)

end HttpServer

end MixServer.Server
