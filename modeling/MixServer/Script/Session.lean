import MixServer.Script.HttpHandle
import MixServer.Script.WSGrammar
import MixServer.Server.LineSplit

/-!
A connection of `script/httphandle.py`, from its first line to its last message.

A connection has a handler object, an `HttpHandle` first and after an upgrade a
`WSHandle`. A `Session` is one connection on its own: what `httpHandle::handle_read` does
with the data of one READ event after the other, when there is nothing else on the server and
its buffers lose no byte.

`run_opened` says what an upgrade request leads to however it is cut, and `run_echoes` what
becomes of the frames behind it: the first of them are echoed, in order, and all of them
iff no READ event has the end of one and the beginning of the next.
-/

namespace MixServer.Script

open Lib Net

/-! ### Python's library -/

/-- The headers of a request, looked up by name. -/
abbrev Headers := Bytes → Option Bytes

/-- What `handle_one_request` does with the bytes that it has read. -/
inductive Parsed where
  /-- `do_GET` is called. -/
  | doGet (headers : Headers)
  /-- An error response is written, or nothing. -/
  | refused (written : List Bytes)

/-- The fields of a `time.struct_time`. -/
structure StructTime where
  year : Nat
  month : Nat
  day : Nat
  hh : Nat
  mm : Nat
  ss : Nat
  wd : Nat
deriving DecidableEq, Repr

/-- What the script takes from Python's library: the parsing of `BaseHTTPRequestHandler`,
`base64.b64encode(hashlib.sha1(s).digest())`, and the time at which a connection is
answered. -/
structure Library where
  parse : Bytes → Parsed
  hashKey : Bytes → Bytes
  gmtime : Nat → StructTime

/-! ### Responses -/

/-- `"%0wd"` or `"%wd"`, padded with `c`. -/
def padded (c : Char) (w n : Nat) : String :=
  String.ofList (List.replicate (w - (toString n).length) c) ++ toString n

def weekdayname : List String := ["Mon", "Tue", "Wed", "Thu", "Fri", "Sat", "Sun"]

def monthname : List String :=
  ["", "Jan", "Feb", "Mar", "Apr", "May", "Jun", "Jul", "Aug", "Sep", "Oct", "Nov", "Dec"]

/-- `WSHandle.date_time_string`. -/
def dateTimeString (t : StructTime) : String :=
  weekdayname.getD t.wd "" ++ ", " ++ padded '0' 2 t.day ++ " " ++ monthname.getD t.month "" ++
    " " ++ padded ' ' 4 t.year ++ " " ++ padded '0' 2 t.hh ++ ":" ++ padded '0' 2 t.mm ++ ":" ++
    padded '0' 2 t.ss ++ " GMT"

/-- `make_response`. -/
def makeResponse (code message : String) (headers : List (Bytes × Bytes)) : Bytes :=
  let res := text "HTTP/1.1" ++ text " " ++ text code ++ text " " ++ text message ++ crlf
  let headStr := crlf.intercalate (headers.map fun h => h.1 ++ text ": " ++ h.2)
  res ++ headStr ++ crlf

def WS_KEY : Bytes := text "258EAFA5-E914-47DA-95CA-C5AB0DC85B11"

/-- What `WSHandle.send_response` sends on connection `connId`. -/
def switchingProtocols (lib : Library) (connId : Nat) (key host : Bytes) : Bytes :=
  makeResponse "101" "Switching Protocols"
    [(text "Upgrade", text "websocket"), (text "Connection", text "Upgrade"),
      (text "Sec-WebSocket-Accept", lib.hashKey (key ++ WS_KEY)),
      (text "Content-Length", text "0"),
      (text "Date", text (dateTimeString (lib.gmtime connId))),
      (text "Sec-WebSocket-Location:", text "ws://" ++ host)] ++ crlf

def htmlTestCode : Bytes :=
  text ("<html>\n<head>\n<title>An Example Page</title>\n</head>\n<body>\n" ++
    "Hello World!!!.\n</body>\n</html>")

/-- What `do_GET` sends when nothing is upgraded. -/
def okResponse : Bytes :=
  makeResponse "200" "OK"
    [(text "Content-Encoding", text "utf-8"),
      (text "Content-Type", text "text/html; charset=UTF-8"),
      (text "Content-Length", text (toString htmlTestCode.length))] ++ crlf ++ htmlTestCode

/-! ### The handler objects -/

/-- What a handler does to its connection through its sender. -/
inductive Effect where
  | send (p : Bytes)
  | close
  | setReadingLine (value : Bool)
deriving DecidableEq, Repr

/-- An entry of the dictionary `handles`. -/
inductive PyHandler where
  | http (h : HttpHandle)
  | ws (h : WSHandle)

/-- The buffer of a new handler is read from its start. -/
theorem inside_new : 0 ≤ ([] : Bytes).length := Nat.zero_le 0

/-- `HttpHandle.__init__`. -/
def HttpHandle.new : HttpHandle where
  rbuf := { inside := inside_new }

/-- `WSHandle.on_handle`: without one of the headers it raises `KeyError`. -/
def WSHandle.onHandle (lib : Library) (connId : Nat) (headers : Headers) : List Effect :=
  match headers (text "Sec-WebSocket-Key"), headers (text "Host") with
  | some key, some host => [.send (switchingProtocols lib connId key host)]
  | _, _ => []

/-- `HttpHandle.do_GET`, with the handler that it leaves in `handles`. -/
def HttpHandle.doGet (lib : Library) (connId : Nat) (h : HttpHandle) (headers : Headers) :
    PyHandler × List Effect :=
  if headers (text "Connection") = some (text "Upgrade") then
    (.ws {}, .setReadingLine false :: WSHandle.onHandle lib connId headers)
  else
    (.http h, [.send okResponse, .close])

namespace PyHandler

/-- `handle_line`. A `WSHandle` has no such method; the call raises and is printed. -/
def handleLine (lib : Library) (connId : Nat) : PyHandler → Bytes → PyHandler × List Effect
  | .ws h, _ => (.ws h, [])
  | .http h, line =>
      let h := h.handleLine line
      if line.length = 0 then
        match lib.parse (h.requests.getLast?.getD []) with
        | .doGet headers => h.doGet lib connId headers
        | .refused written => (.http h, written.map .send)
      else
        (.http h, [])

/-- `handle_message`; that of an `HttpHandle` only prints. -/
def handleMessage : PyHandler → Bytes → PyHandler × List Effect
  | .http h, _ => (.http h, [])
  | .ws h, s =>
      let h' := h.handleMessage s
      let closes := h'.calls.drop h.calls.length = [.handleClose]
      (.ws h', (h'.sent.drop h.sent.length).map .send ++ if closes then [.close] else [])

end PyHandler

/-- A close is the last effect. -/
def ClosesLast (effects : List Effect) : Prop := .close ∉ effects.dropLast

theorem closesLast_sends (ps : List Bytes) : ClosesLast (ps.map .send) := by
  intro hmem
  obtain ⟨p, -, heq⟩ := List.mem_map.mp (List.mem_of_mem_dropLast hmem)
  cases heq

theorem closesLast_sends_close (ps : List Bytes) : ClosesLast (ps.map .send ++ [.close]) := by
  rw [ClosesLast, List.dropLast_concat]
  intro hmem
  obtain ⟨p, -, heq⟩ := List.mem_map.mp hmem
  cases heq

theorem ClosesLast.tail {e : Effect} {effects : List Effect} (h : ClosesLast (e :: effects)) :
    ClosesLast effects := by
  cases effects with
  | nil => exact List.not_mem_nil
  | cons e' effects => exact fun hmem => h (List.mem_cons_of_mem e hmem)

/-- Nothing follows a close. -/
theorem ClosesLast.eq_nil {effects : List Effect} (h : ClosesLast (.close :: effects)) :
    effects = [] := by
  cases effects with
  | nil => rfl
  | cons e effects => exact (h List.mem_cons_self).elim

theorem closesLast_doGet (lib : Library) (connId : Nat) (h : HttpHandle) (headers : Headers) :
    ClosesLast (h.doGet lib connId headers).2 := by
  unfold HttpHandle.doGet
  split
  · unfold WSHandle.onHandle
    split
    · simp [ClosesLast]
    · simp [ClosesLast]
  · exact closesLast_sends_close [okResponse]

namespace PyHandler

theorem closesLast_handleLine (lib : Library) (connId : Nat) (h : PyHandler) (line : Bytes) :
    ClosesLast (h.handleLine lib connId line).2 := by
  cases h with
  | ws h => exact List.not_mem_nil
  | http h =>
    simp only [handleLine]
    split
    · split
      · exact closesLast_doGet lib connId _ _
      · exact closesLast_sends _
    · exact List.not_mem_nil

theorem closesLast_handleMessage (h : PyHandler) (s : Bytes) :
    ClosesLast (h.handleMessage s).2 := by
  cases h with
  | http h => exact List.not_mem_nil
  | ws h =>
    simp only [handleMessage]
    split
    · exact closesLast_sends_close _
    · rw [List.append_nil]
      exact closesLast_sends _

end PyHandler

/-! ### One connection -/

/-- A connection as its handler knows it, the bytes that wait in `pread_buf`, and all bytes
given to `send`. -/
structure Session where
  handler : PyHandler := .http .new
  readingLine : Bool := true
  preadBuf : Bytes := []
  sent : Bytes := []

namespace Session

/-- A close ends the session, with what it was then. -/
def perform (s : Session) : Effect → Except Session Session
  | .send p => .ok { s with sent := s.sent ++ p }
  | .close => .error s
  | .setReadingLine value => .ok { s with readingLine := value }

theorem perform_eq_error {s c : Session} {e : Effect} (h : s.perform e = .error c) :
    e = .close ∧ c = s := by
  cases e with
  | send p => cases h
  | close =>
    cases h
    exact ⟨rfl, rfl⟩
  | setReadingLine value => cases h

/-- The handler has been called, and the call has had these effects. -/
def called (s : Session) (r : PyHandler × List Effect) : Except Session Session :=
  exec perform { s with handler := r.1 } r.2

variable (lib : Library) (connId : Nat)

/-- `py_handle_line`. -/
def feedLine (s : Session) (line : Bytes) : Except Session Session :=
  s.called (s.handler.handleLine lib connId line)

/-- The loop of `httpHandle::handle_read`, with a bound on its turns. -/
def lineLoop : Nat → Session → Except Session Session
  | 0, s => .ok s
  | turns + 1, s =>
      match findCRLF s.preadBuf with
      | none => .ok s
      | some idx => do
          let line := s.preadBuf.take idx
          let s ← feedLine lib connId { s with preadBuf := s.preadBuf.drop (idx + 2) } line
          lineLoop turns s

/-- A READ event with the data `chunk`, as `httpHandle::handle_read` handles it. -/
def handleRead (s : Session) (chunk : Bytes) : Except Session Session :=
  let s := { s with preadBuf := s.preadBuf ++ chunk }
  if s.readingLine then lineLoop lib connId s.preadBuf.length s
  else { s with preadBuf := [] }.called (s.handler.handleMessage s.preadBuf)

/-- The READ events of a connection, up to a close. -/
def run (chunks : List Bytes) : Except Session Session := exec (handleRead lib connId) {} chunks

/-- The handler closes in the last of the READ events, and leaves no line behind. -/
def Finishes (chunks : List Bytes) (c : Session) : Prop :=
  ∃ init last c₀, chunks = init ++ [last] ∧ run lib connId init = .ok c₀ ∧
    handleRead lib connId c₀ last = .error c ∧ findCRLF c.preadBuf = none

/-! ### Lines -/

variable {s : Session}

/-- The first line of a buffer. -/
theorem next_of_drain {buf line rest : Bytes} {lines : List Bytes}
    (h : crlfLines.drain buf = (line :: lines, rest)) :
    ∃ idx, findCRLF buf = some idx ∧ buf.take idx = line ∧
      crlfLines.drain (buf.drop (idx + 2)) = (lines, rest) := by
  cases hidx : findCRLF buf with
  | none =>
    rw [crlfLines.drain_of_none (Server.HttpServer.crlfLines_next_of_none hidx)] at h
    cases h
  | some idx =>
    rw [crlfLines.drain_of_some (Server.HttpServer.crlfLines_next_of_some hidx)] at h
    obtain ⟨hlines, hrest⟩ := Prod.mk.inj h
    obtain ⟨hline, hlines⟩ := List.cons.inj hlines
    exact ⟨idx, rfl, hline, Prod.ext hlines hrest⟩

theorem eq_of_drain {xs ys : Bytes} (h : crlfLines.drain xs = ([], ys)) : xs = ys := by
  have hwhole := (lines_iff_drain.mpr h).whole
  simpa using hwhole

theorem lineLoop_none (h : findCRLF s.preadBuf = none) (turns : Nat) :
    lineLoop lib connId turns s = .ok s := by
  cases turns with
  | zero => rfl
  | succ turns => simp only [lineLoop, h]

theorem feedLine_collect {h : HttpHandle} (hs : s.handler = .http h) {line : Bytes}
    (hline : line ≠ []) :
    feedLine lib connId s line = .ok { s with handler := .http (h.handleLine line) } := by
  have hpos : line.length ≠ 0 := fun hzero => hline (List.length_eq_zero_iff.mp hzero)
  rw [feedLine, hs, PyHandler.handleLine]
  simp only [if_neg hpos]
  rfl

/-- The loop collects the lines with something in them. -/
theorem lineLoop_collect {h : HttpHandle} (hs : s.handler = .http h) {lines more : List Bytes}
    {rest : Bytes} (hne : ∀ line ∈ lines, line ≠ [])
    (hdrain : crlfLines.drain s.preadBuf = (lines ++ more, rest)) {turns : Nat}
    (hturns : s.preadBuf.length ≤ turns) :
    ∃ turns' b, lineLoop lib connId turns s =
        lineLoop lib connId turns'
          { s with handler := .http (lines.foldl HttpHandle.handleLine h), preadBuf := b } ∧
      crlfLines.drain b = (more, rest) ∧ b.length ≤ turns' := by
  induction lines generalizing s h turns with
  | nil => exact ⟨turns, s.preadBuf, by rw [List.foldl_nil, ← hs], hdrain, hturns⟩
  | cons line lines ih =>
    obtain ⟨idx, hidx, hline, hdrain⟩ := next_of_drain hdrain
    have hlt := findCRLF_lt hidx
    obtain ⟨turns, rfl⟩ := Nat.exists_eq_succ_of_ne_zero (by omega : turns ≠ 0)
    have hfeed : feedLine lib connId { s with preadBuf := s.preadBuf.drop (idx + 2) } line =
        .ok { s with
          handler := .http (h.handleLine line), preadBuf := s.preadBuf.drop (idx + 2) } :=
      feedLine_collect lib connId (s := { s with preadBuf := s.preadBuf.drop (idx + 2) }) hs
        (hne line List.mem_cons_self)
    have hshort : (s.preadBuf.drop (idx + 2)).length ≤ turns := by
      rw [List.length_drop]
      omega
    obtain ⟨turns', b, hloop, hb, hlen⟩ := ih (s := { s with
        handler := .http (h.handleLine line), preadBuf := s.preadBuf.drop (idx + 2) }) rfl
      (fun l hl => hne l (List.mem_cons_of_mem line hl)) hdrain hshort
    refine ⟨turns', b, ?_, hb, hlen⟩
    simp only [lineLoop, hidx, hline, hfeed, ok_bind]
    exact hloop

/-! ### A request -/

/-- No line of the request has a line feed in it. -/
def LfFree (r : Request) : Prop := ∀ line ∈ r.lines, 10 ∉ line

instance (r : Request) : Decidable (LfFree r) :=
  inferInstanceAs (Decidable (∀ line ∈ r.lines, 10 ∉ line))

variable {r : Request} {key host : Bytes}

/-- A line without a line feed ends at its own CR LF. -/
theorem not_pairAt_of_lf_free {line : Bytes} (hline : 10 ∉ line) {j : Nat}
    (hj : j < line.length) : ¬ PairAt (line ++ crlf) j := by
  rintro ⟨-, hlf⟩
  rcases Nat.lt_or_eq_of_le (Nat.succ_le_of_lt hj) with hlt | heq
  · rw [List.getElem?_append_left hlt] at hlf
    exact hline (List.mem_of_getElem? hlf)
  · rw [List.getElem?_append_right heq.ge, heq, Nat.sub_self] at hlf
    cases hlf

theorem drain_bytes (hr : LfFree r) : crlfLines.drain r.bytes = (r.lines ++ [[]], []) := by
  refine lines_iff_drain.mp ⟨?_, ?_, ?_⟩
  · simp [Request.bytes, crlf, Net.crlf]
  · intro line hline j hj
    rcases List.mem_append.mp hline with hline | hline
    · exact not_pairAt_of_lf_free (hr line hline) hj
    · rw [List.mem_singleton.mp hline] at hj
      exact absurd hj (Nat.not_lt_zero j)
  · simp [PairAt]

/-- The state in which the empty line of a request finds the connection. -/
def collected (r : Request) : Session where
  handler := .http (r.lines.foldl HttpHandle.handleLine .new)

/-- The empty line ends the request, which is read back whole. -/
theorem feedLine_request (hr : LfFree r) :
    feedLine lib connId (collected r) [] =
      called (collected r)
        (match lib.parse r.bytes with
          | .doGet headers => (HttpHandle.feed .new r).doGet lib connId headers
          | .refused written => (.http (HttpHandle.feed .new r), written.map .send)) := by
  have hfeed : (r.lines.foldl HttpHandle.handleLine .new).handleLine [] =
      HttpHandle.feed .new r := by
    rw [HttpHandle.feed, List.foldl_append, List.foldl_cons, List.foldl_nil]
  have hwhole : oneRequest r.bytes = r.bytes :=
    (HttpHandle.oneRequest_eq_iff r).mpr (HttpHandle.selfDelimiting_of_lf_free hr)
  have hrequests : (HttpHandle.feed .new r).requests = [r.bytes] :=
    (HttpHandle.feed_first r).trans (by rw [hwhole])
  rw [feedLine, collected, PyHandler.handleLine]
  simp only [hfeed, hrequests, List.length_nil, if_true, List.getLast?_singleton,
    Option.getD_some]

/-- A chunk that brings nothing but lines of a request, of which `past` have been fed. -/
theorem handleRead_collects (past : List Bytes) {lines : List Bytes} {b c rest : Bytes}
    (hne : ∀ line ∈ lines, line ≠ []) (hdrain : crlfLines.drain (b ++ c) = (lines, rest)) :
    handleRead lib connId
        { handler := .http (past.foldl HttpHandle.handleLine .new), preadBuf := b } c =
      .ok { handler := .http ((past ++ lines).foldl HttpHandle.handleLine .new)
            preadBuf := rest } := by
  have hopen : findCRLF rest = none :=
    findCRLF_eq_none_iff.mpr (lines_iff_drain.mpr hdrain).open_
  have hfirst : crlfLines.drain (b ++ c) = (lines ++ [], rest) := by
    rw [hdrain, List.append_nil]
  obtain ⟨turns, b₁, hloop, hb₁, -⟩ := lineLoop_collect lib connId
    (s := { handler := .http (past.foldl HttpHandle.handleLine .new), preadBuf := b ++ c }) rfl
    hne hfirst le_rfl
  obtain rfl := eq_of_drain hb₁
  rw [← List.foldl_append] at hloop
  exact hloop.trans (lineLoop_none lib connId hopen turns)

/-- A chunk that brings the last lines of a request and its empty line. -/
theorem handleRead_completes {past lines : List Bytes} (hlines : past ++ lines = r.lines)
    {b c : Bytes} (hdrain : crlfLines.drain (b ++ c) = (lines ++ [[]], []))
    (hlast : ∀ s, feedLine lib connId (collected r) [] = .ok s → s.preadBuf = []) :
    handleRead lib connId
        { handler := .http (past.foldl HttpHandle.handleLine .new), preadBuf := b } c =
      feedLine lib connId (collected r) [] := by
  have hne : ∀ line ∈ lines, line ≠ [] := fun l hl =>
    r.nonempty l (hlines ▸ List.mem_append_right past hl)
  obtain ⟨turns, b₁, hloop, hb₁, hlen⟩ := lineLoop_collect lib connId
    (s := { handler := .http (past.foldl HttpHandle.handleLine .new), preadBuf := b ++ c }) rfl
    hne hdrain le_rfl
  obtain ⟨idx, hidx, hline, hdrop⟩ := next_of_drain hb₁
  have hlt := findCRLF_lt hidx
  obtain ⟨turns, rfl⟩ := Nat.exists_eq_succ_of_ne_zero (by omega : turns ≠ 0)
  rw [← List.foldl_append, hlines] at hloop
  refine hloop.trans ?_
  simp only [lineLoop, hidx, hline, eq_of_drain hdrop]
  rw [← collected]
  cases hfeed : feedLine lib connId (collected r) [] with
  | error s => rfl
  | ok s =>
    rw [ok_bind, lineLoop_none lib connId]
    rw [hlast s hfeed]
    rfl

/-- The rest of a request arrives: `past` has been fed, and `b` waits. -/
theorem handleReads_request {past lines : List Bytes}
    (hlines : past ++ lines = r.lines) {b : Bytes} (hb : findCRLF b = none)
    {chunks : List Bytes} (hne : ∀ c ∈ chunks, c ≠ [])
    (hdrain : crlfLines.drain (b ++ chunks.flatten) = (lines ++ [[]], []))
    (hlast : ∀ s, feedLine lib connId (collected r) [] = .ok s → s.preadBuf = []) :
    ∃ init last s, chunks = init ++ [last] ∧
      exec (handleRead lib connId)
        { handler := .http (past.foldl HttpHandle.handleLine .new), preadBuf := b } init = .ok s ∧
      handleRead lib connId s last = feedLine lib connId (collected r) [] := by
  induction chunks generalizing past lines b with
  | nil =>
    have hnone := crlfLines.drain_of_none (Server.HttpServer.crlfLines_next_of_none hb)
    rw [List.flatten_nil, List.append_nil, hnone] at hdrain
    simp at hdrain
  | cons c cs ih =>
    have hcs : ∀ c ∈ cs, c ≠ [] := fun c' hc' => hne c' (List.mem_cons_of_mem c hc')
    rw [List.flatten_cons, ← List.append_assoc, crlfLines.drain_append] at hdrain
    obtain ⟨hitems, hrest⟩ := Prod.mk.inj hdrain
    rcases List.eq_nil_or_concat
      (crlfLines.drain ((crlfLines.drain (b ++ c)).2 ++ cs.flatten)).1 with
      hnil | ⟨more, l, hmore⟩
    · -- this chunk completes the request
      obtain ⟨hnone, hflat⟩ := List.append_eq_nil_iff.mp (eq_of_drain (Prod.ext hnil hrest))
      obtain rfl := WSHandle.eq_nil_of_flatten_eq_nil hcs hflat
      rw [hnil, List.append_nil] at hitems
      exact ⟨[], c, _, rfl, rfl,
        handleRead_completes lib connId hlines (Prod.ext hitems hnone) hlast⟩
    · -- the last of the lines, the empty one, is among those that follow
      rw [hmore, List.concat_eq_append, ← List.append_assoc] at hitems
      obtain ⟨hitems, hl⟩ := List.append_inj' hitems rfl
      rw [← hitems, ← List.append_assoc] at hlines
      have hcollects := handleRead_collects lib connId past (c := c) (b := b)
        (fun l hl => r.nonempty l (hlines ▸ List.mem_append_left more
          (List.mem_append_right past hl))) rfl
      have hopen : findCRLF (crlfLines.drain (b ++ c)).2 = none :=
        findCRLF_eq_none_iff.mpr (lines_iff_drain.mpr rfl).open_
      have hdrain : crlfLines.drain ((crlfLines.drain (b ++ c)).2 ++ cs.flatten) =
          (more ++ [[]], []) := by
        refine Prod.ext ?_ hrest
        rw [hmore, List.concat_eq_append, hl]
      obtain ⟨init, last, s, rfl, hinit, hend⟩ := ih hlines hopen hcs hdrain
      refine ⟨c :: init, last, s, rfl, ?_, hend⟩
      rw [exec_cons_ok hcollects, hinit]

theorem run_request (hr : LfFree r) {chunks : List Bytes} (hne : ∀ c ∈ chunks, c ≠ [])
    (hwhole : chunks.flatten = r.bytes)
    (hlast : ∀ s, feedLine lib connId (collected r) [] = .ok s → s.preadBuf = []) :
    ∃ init last s, chunks = init ++ [last] ∧ run lib connId init = .ok s ∧
      handleRead lib connId s last = feedLine lib connId (collected r) [] := by
  have hdrain : crlfLines.drain ([] ++ chunks.flatten) = (r.lines ++ [[]], []) := by
    rw [List.nil_append, hwhole]
    exact drain_bytes hr
  exact handleReads_request lib connId (List.nil_append r.lines) rfl hne hdrain hlast

/-- The request is one that `do_GET` answers by an upgrade. -/
structure Upgrades (lib : Library) (r : Request) (key host : Bytes) : Prop where
  lf_free : LfFree r
  parsed : ∃ headers, lib.parse r.bytes = .doGet headers ∧
    headers (text "Connection") = some (text "Upgrade") ∧
    headers (text "Sec-WebSocket-Key") = some key ∧ headers (text "Host") = some host

variable {lib}

/-- The connection after its upgrade. -/
def opened (lib : Library) (connId : Nat) (key host : Bytes) : Session where
  handler := .ws {}
  readingLine := false
  sent := switchingProtocols lib connId key host

/-- **An upgrade request**, however it is cut, leads to the response and to message mode. -/
theorem run_opened (hr : Upgrades lib r key host) {chunks : List Bytes}
    (hne : ∀ c ∈ chunks, c ≠ []) (hwhole : chunks.flatten = r.bytes) :
    run lib connId chunks = .ok (opened lib connId key host) := by
  obtain ⟨headers, hparse, hupgrade, hkey, hhost⟩ := hr.parsed
  have hfeed : feedLine lib connId (collected r) [] = .ok (opened lib connId key host) := by
    rw [feedLine_request lib connId hr.lf_free]
    simp only [hparse, HttpHandle.doGet, if_pos hupgrade, WSHandle.onHandle, hkey, hhost]
    rfl
  obtain ⟨init, last, s, rfl, hinit, hend⟩ := run_request lib connId hr.lf_free hne hwhole
    fun s hs => by
      rw [hfeed] at hs
      cases hs
      rfl
  rw [run] at hinit
  rw [run, exec_append, hinit, ← hfeed, ← hend]
  exact exec_singleton s last

/-- The request is one that `do_GET` answers by a page. -/
structure Gets (lib : Library) (r : Request) : Prop where
  lf_free : LfFree r
  parsed : ∃ headers, lib.parse r.bytes = .doGet headers ∧
    headers (text "Connection") ≠ some (text "Upgrade")

/-- **Any other GET**, however it is cut, leads to the page, and its end to the close. -/
theorem run_got (hr : Gets lib r) {chunks : List Bytes} (hne : ∀ c ∈ chunks, c ≠ [])
    (hwhole : chunks.flatten = r.bytes) :
    Finishes lib connId chunks
      { handler := .http (HttpHandle.feed .new r), sent := okResponse } := by
  obtain ⟨headers, hparse, hupgrade⟩ := hr.parsed
  have hfeed : feedLine lib connId (collected r) [] =
      .error { handler := .http (HttpHandle.feed .new r), sent := okResponse } := by
    rw [feedLine_request lib connId hr.lf_free]
    simp only [hparse, HttpHandle.doGet, if_neg hupgrade]
    rfl
  obtain ⟨init, last, s, hchunks, hinit, hend⟩ :=
    run_request lib connId hr.lf_free hne hwhole fun s hs => by
      rw [hfeed] at hs
      cases hs
  exact ⟨init, last, s, hchunks, hinit, hend.trans hfeed, rfl⟩

/-! ### Messages -/

variable (lib)

open WSHandle (Grouped grouped_cons grouped_next not_grouped eq_nil_of_flatten_eq_nil)

/-- What is sent for a call. -/
def echo : WSCall → List Bytes
  | .handleFrame data => (WSFrame.makeFrameData ("echo:".toUTF8.toList ++ data) []).toList
  | .handleClose => []

/-- What is sent for a message is sent for the calls that it leads to. -/
theorem handleMessage_cases (h : WSHandle) (m : Bytes) :
    ∃ calls, (h.handleMessage m).calls = h.calls ++ calls ∧
      (h.handleMessage m).sent = h.sent ++ calls.flatMap echo := by
  rcases hread : (h.curFrame.getD {}).onRead m with ⟨f, outcome⟩
  rw [WSHandle.handleMessage, hread]
  cases outcome with
  | returned => exact ⟨[], by simp, by simp⟩
  | handleFrame data => exact ⟨[.handleFrame data], rfl, by simp [echo, WSHandle.handleFrame]⟩
  | handleClose => exact ⟨[.handleClose], rfl, by simp [echo]⟩
  | raised => exact ⟨[], by simp, by simp⟩

theorem calls_handleMessages (h : WSHandle) (chunks : List Bytes) :
    h.calls <+: (chunks.foldl WSHandle.handleMessage h).calls := by
  induction chunks generalizing h with
  | nil => exact List.prefix_rfl
  | cons m chunks ih =>
    obtain ⟨calls, hcalls, -⟩ := handleMessage_cases h m
    exact (hcalls ▸ List.prefix_append h.calls calls).trans (ih (h.handleMessage m))

theorem sent_handleMessages {h : WSHandle} (hsent : h.sent = h.calls.flatMap echo)
    (chunks : List Bytes) :
    (chunks.foldl WSHandle.handleMessage h).sent =
      (chunks.foldl WSHandle.handleMessage h).calls.flatMap echo := by
  induction chunks generalizing h with
  | nil => exact hsent
  | cons m chunks ih =>
    obtain ⟨calls, hcalls, hnew⟩ := handleMessage_cases h m
    exact ih (by rw [hnew, hcalls, List.flatMap_append, hsent])

theorem performSends (ps : List Bytes) (s : Session) :
    exec perform s (ps.map Effect.send) = .ok { s with sent := s.sent ++ ps.flatten } := by
  induction ps generalizing s with
  | nil => simp
  | cons p ps ih =>
    have hfirst : s.perform (.send p) = .ok { s with sent := s.sent ++ p } := rfl
    rw [List.map_cons, exec_cons_ok hfirst, ih, List.flatten_cons, List.append_assoc]

/-- A connection in message mode, with what was sent before. -/
def talking (before : Bytes) (h : WSHandle) : Session where
  handler := .ws h
  readingLine := false
  sent := before ++ h.sent.flatten

theorem handleRead_talking (before : Bytes) (h : WSHandle) (m : Bytes) :
    handleRead lib connId (talking before h) m =
      if (h.handleMessage m).calls.drop h.calls.length = [.handleClose] then
        .error (talking before (h.handleMessage m))
      else
        .ok (talking before (h.handleMessage m)) := by
  obtain ⟨calls, hcalls, hsent⟩ := handleMessage_cases h m
  have hread : handleRead lib connId (talking before h) m =
      called (talking before h) (PyHandler.handleMessage (.ws h) m) := rfl
  have hnew : talking before (h.handleMessage m) =
      { talking before h with
        handler := .ws (h.handleMessage m)
        sent := (talking before h).sent ++ (calls.flatMap echo).flatten } := by
    rw [talking, talking, hsent, List.flatten_append, List.append_assoc]
  rw [hread, called, PyHandler.handleMessage]
  simp only [hsent, List.drop_left]
  rw [exec_append, performSends, hnew]
  split
  · rfl
  · rfl

theorem handleReads_messages {h : WSHandle} {chunks : List Bytes}
    (hclose : .handleClose ∉ (chunks.foldl WSHandle.handleMessage h).calls) (before : Bytes) :
    exec (handleRead lib connId) (talking before h) chunks =
      .ok (talking before (chunks.foldl WSHandle.handleMessage h)) := by
  induction chunks generalizing h with
  | nil => rfl
  | cons m chunks ih =>
    have hfirst : ¬ ((h.handleMessage m).calls.drop h.calls.length = [.handleClose]) := by
      intro heq
      refine hclose ((calls_handleMessages (h.handleMessage m) chunks).subset ?_)
      exact List.mem_of_mem_drop (heq ▸ List.mem_singleton_self _)
    have hstep := handleRead_talking lib connId before h m
    rw [if_neg hfirst] at hstep
    rw [exec_cons_ok hstep, List.foldl_cons]
    exact ih hclose

/-! ### Frames -/

/-- The frames of a client: masked text frames of non-empty messages, whose keys begin with
a non-zero octet, and whose echoes can be written. -/
structure ClientFrames (msgs : List (Bytes × Bytes)) (frames : List Bytes) : Prop where
  keyed : ∀ m ∈ msgs, m.1 ≠ [] ∧ ∃ a b c d, m.2 = [a, b, c, d] ∧ a ≠ 0
  short : ∀ m ∈ msgs, ("echo:".toUTF8.toList ++ m.1).length < 256 ^ 8
  written : List.Forall₂ (fun m F => WSFrame.makeFrameData m.1 m.2 = some F) msgs frames

/-- Each frame ends where a chunk ends. -/
def Separate (chunks frames : List Bytes) : Prop :=
  ∃ groups : List (List Bytes), groups.flatten = chunks ∧ groups.map List.flatten = frames

/-- `p` has been read of the frame `F`; the chunks hold the rest of it and the frames after
it. The first messages are handed over, and all of them iff no chunk spans two frames. -/
theorem handleMessages_first {h : WSHandle} {chunks : List Bytes} (hne : ∀ c ∈ chunks, c ≠ [])
    {msg key extra F p : Bytes} {len : UInt8} (hF : WSFrame.Masked msg key extra len F)
    (hp : p.length < F.length)
    (hcur : h.curFrame.getD {} = WSFrame.waiting extra len msg.length p)
    {msgs : List (Bytes × Bytes)} {frames : List Bytes}
    (hframes : List.Forall₂ (fun m F => ∃ extra len, WSFrame.Masked m.1 m.2 extra len F)
      msgs frames)
    (hcut : p ++ chunks.flatten = F ++ frames.flatten) :
    ∃ k ≤ msgs.length + 1, (chunks.foldl WSHandle.handleMessage h).calls =
        h.calls ++ ((msg :: msgs.map Prod.fst).take k).map .handleFrame ∧
      (k = msgs.length + 1 ↔ Grouped p chunks F frames) := by
  induction chunks generalizing h p msg key extra len F msgs frames with
  | nil =>
    have hlen := congrArg List.length hcut
    simp at hlen
    omega
  | cons c cs ih =>
    rw [List.flatten_cons, ← List.append_assoc] at hcut
    have hpre : p ++ c <+: F ++ frames.flatten := hcut ▸ List.prefix_append _ _
    have hcs : ∀ c ∈ cs, c ≠ [] := fun c' hc' => hne c' (List.mem_cons_of_mem c hc')
    rw [List.foldl_cons, grouped_cons hp]
    cases WSFrame.reads_waiting hF c hp hpre with
    | incomplete hlt heq =>
      have hstep : h.handleMessage c =
          { h with curFrame := some (WSFrame.waiting extra len msg.length (p ++ c)) } := by
        simp only [WSHandle.handleMessage, hcur, heq]
      rw [hstep]
      exact ih hcs hF hlt rfl hframes hcut
    | complete heq hdone =>
      have hstep : h.handleMessage c = { h with
          curFrame := some ((WSFrame.waiting extra len msg.length p).onRead c).1 }.handleFrame
            msg := by
        simp only [WSHandle.handleMessage, hcur, hdone]
      have hcalls : (h.handleMessage c).calls = h.calls ++ [.handleFrame msg] := by
        rw [hstep]
        rfl
      rw [heq, List.append_cancel_left_eq] at hcut
      rw [heq]
      cases hframes with
      | nil =>
        obtain rfl := eq_nil_of_flatten_eq_nil hcs hcut
        exact ⟨1, le_rfl, hcalls, iff_of_true rfl ⟨[], [], rfl, List.append_nil F, rfl⟩⟩
      | cons hnext hframes =>
        obtain ⟨extra', len', hF'⟩ := hnext
        obtain ⟨k, hk, hrest, hgroups⟩ := ih (h := h.handleMessage c) (p := []) hcs hF'
          hF'.length_pos (by rw [hstep]; rfl) hframes hcut
        refine ⟨k + 1, Nat.succ_le_succ hk, ?_, ?_⟩
        · rw [hrest, hcalls, List.append_assoc]
          rfl
        · rw [grouped_next hcs, ← hgroups]
          exact Nat.succ_inj
    | overrun hgt hret hstuck =>
      have hstep : h.handleMessage c = { h with
          curFrame := some ((WSFrame.waiting extra len msg.length p).onRead c).1 } := by
        simp only [WSHandle.handleMessage, hcur, hret]
      have hcalls := WSHandle.handleMessages_stuck (h := h.handleMessage c) hstuck
        (by rw [hstep]) cs
      refine ⟨0, Nat.zero_le _, ?_, iff_of_false (Nat.succ_ne_zero _).symm (not_grouped hgt)⟩
      rw [hcalls, hstep]
      exact (List.append_nil _).symm

theorem ClientFrames.masked {msgs : List (Bytes × Bytes)} {frames : List Bytes}
    (hf : ClientFrames msgs frames) :
    List.Forall₂ (fun m F => ∃ extra len, WSFrame.Masked m.1 m.2 extra len F) msgs frames := by
  refine ((List.forall₂_and_left _ _).mpr ⟨hf.keyed, hf.written⟩).imp ?_
  rintro ⟨msg, key⟩ F ⟨⟨hmsg, a, b, c, d, hkey, ha⟩, hmake⟩
  obtain rfl : key = [a, b, c, d] := hkey
  exact ⟨_, _, WSFrame.masked_of_makeFrameData hmsg ha hmake⟩

theorem grouped_iff_separate {chunks frames : List Bytes} {F : Bytes} :
    Grouped [] chunks F frames ↔ Separate chunks (F :: frames) := by
  constructor
  · rintro ⟨group, groups, hchunks, hgroup, hmap⟩
    exact ⟨group :: groups, hchunks, by rw [List.map_cons, hmap, ← hgroup, List.nil_append]⟩
  · rintro ⟨groups, hchunks, hmap⟩
    cases groups with
    | nil => cases hmap
    | cons group groups =>
      rw [List.map_cons, List.cons.injEq] at hmap
      exact ⟨group, groups, hchunks, hmap.1, hmap.2⟩

theorem calls_of_frames {msgs : List (Bytes × Bytes)} {frames chunks : List Bytes}
    (hf : ClientFrames msgs frames) (hne : ∀ c ∈ chunks, c ≠ [])
    (hcut : chunks.flatten = frames.flatten) :
    ∃ k ≤ msgs.length, (chunks.foldl WSHandle.handleMessage {}).calls =
        ((msgs.map Prod.fst).take k).map .handleFrame ∧
      (k = msgs.length ↔ Separate chunks frames) := by
  cases hf.masked with
  | nil =>
    obtain rfl := eq_nil_of_flatten_eq_nil hne hcut
    exact ⟨0, le_rfl, rfl, iff_of_true rfl ⟨[], rfl, rfl⟩⟩
  | cons hfirst hrest =>
    obtain ⟨extra, len, hF⟩ := hfirst
    obtain ⟨k, hk, hcalls, hgroups⟩ :=
      handleMessages_first (h := {}) (p := []) hne hF hF.length_pos rfl hrest hcut
    exact ⟨k, hk, hcalls, hgroups.trans grouped_iff_separate⟩

theorem Separate.flatten_eq {chunks frames : List Bytes} (h : Separate chunks frames) :
    chunks.flatten = frames.flatten := by
  obtain ⟨groups, rfl, rfl⟩ := h
  exact List.flatten_flatten

/-- Frames in chunks of their own leave no frame half read. -/
theorem messages_of_separate {msgs : List (Bytes × Bytes)} {frames chunks : List Bytes}
    (hf : ClientFrames msgs frames) (hne : ∀ c ∈ chunks, c ≠ [])
    (h : Separate chunks frames) :
    (chunks.foldl WSHandle.handleMessage {}).calls = (msgs.map Prod.fst).map .handleFrame ∧
      (chunks.foldl WSHandle.handleMessage {}).curFrame = none := by
  have hcut := h.flatten_eq
  cases hf.masked with
  | nil =>
    obtain rfl := eq_nil_of_flatten_eq_nil hne hcut
    exact ⟨rfl, rfl⟩
  | cons hfirst hrest =>
    obtain ⟨extra, len, hF⟩ := hfirst
    have hgrouped := grouped_iff_separate.mpr h
    have hall := (WSHandle.handleMessages_iff (h := {}) (p := []) hne hF hF.length_pos rfl hrest
      hcut).mpr hgrouped
    rw [List.map_cons, List.map_cons, List.map_map]
    exact hall

/-- The frame that answers a message. -/
def echoFrame (msg : Bytes) : BaseFrame where
  fin := true
  rsv := 0
  opcode := 1
  form := LenForm.ofBits (WSFrame.lenBits ("echo:".toUTF8.toList ++ msg).length)
  key := []
  payload := "echo:".toUTF8.toList ++ msg

/-- The echoes are frames of the grammar, one after the other. -/
theorem drain_echoes {msgs : List Bytes}
    (hshort : ∀ msg ∈ msgs, ("echo:".toUTF8.toList ++ msg).length < 256 ^ 8) :
    BaseFrame.splitter.drain ((msgs.map WSCall.handleFrame).flatMap echo).flatten =
      (msgs.map echoFrame, []) := by
  induction msgs with
  | nil => exact BaseFrame.splitter.drain_of_none rfl
  | cons msg msgs ih =>
    obtain ⟨F, hF, hdecode⟩ :=
      BaseFrame.decode_written (hshort msg List.mem_cons_self) (.inl rfl)
    have hrest := ih fun m hm => hshort m (List.mem_cons_of_mem msg hm)
    have hbytes : (((msg :: msgs).map WSCall.handleFrame).flatMap echo).flatten =
        F ++ ((msgs.map WSCall.handleFrame).flatMap echo).flatten := by
      rw [List.map_cons, List.flatMap_cons, echo, hF]
      rfl
    rw [hbytes, BaseFrame.splitter.drain_of_some (hdecode _), hrest]
    rfl

/-! ### A whole connection -/

variable {lib}

theorem not_handleClose_mem (msgs : List Bytes) :
    .handleClose ∉ msgs.map WSCall.handleFrame := by
  intro hmem
  obtain ⟨msg, -, heq⟩ := List.mem_map.mp hmem
  cases heq

theorem ClientFrames.short_echoes {msgs : List (Bytes × Bytes)} {frames : List Bytes}
    (hf : ClientFrames msgs frames) {part : List Bytes}
    (hpart : part.Sublist (msgs.map Prod.fst)) :
    ∀ msg ∈ part, ("echo:".toUTF8.toList ++ msg).length < 256 ^ 8 := by
  intro msg hmsg
  obtain ⟨m, hm, rfl⟩ := List.mem_map.mp (hpart.subset hmsg)
  exact hf.short m hm

/-- An upgrade, and then messages that do not close. -/
theorem run_talking (hr : Upgrades lib r key host) {head tail : List Bytes}
    (hne : ∀ c ∈ head ++ tail, c ≠ []) (hhead : head.flatten = r.bytes)
    (hclose : .handleClose ∉ (tail.foldl WSHandle.handleMessage {}).calls) :
    run lib connId (head ++ tail) =
      .ok (talking (switchingProtocols lib connId key host)
        (tail.foldl WSHandle.handleMessage {})) := by
  have hopened := run_opened connId hr
    (fun c hc => hne c (List.mem_append_left tail hc)) hhead
  have hstart : talking (switchingProtocols lib connId key host) {} =
      opened lib connId key host := by
    simp [talking, opened]
  rw [run] at hopened
  rw [run, exec_append, hopened, ← hstart]
  exact handleReads_messages lib connId hclose _

/-- **A connection that is upgraded** and then gets frames, cut in any way but with no
frame in the last chunk of the request: the response is sent, and then the echoes of the
first messages, in order; of all of them iff no chunk spans two frames. -/
theorem run_echoes (hr : Upgrades lib r key host) {msgs : List (Bytes × Bytes)}
    {frames : List Bytes} (hf : ClientFrames msgs frames) {head tail : List Bytes}
    (hne : ∀ c ∈ head ++ tail, c ≠ []) (hhead : head.flatten = r.bytes)
    (htail : tail.flatten = frames.flatten) :
    ∃ s bs, ∃ k ≤ msgs.length, run lib connId (head ++ tail) = .ok s ∧
      s.sent = switchingProtocols lib connId key host ++ bs ∧
      BaseFrame.splitter.drain bs = (((msgs.map Prod.fst).take k).map echoFrame, []) ∧
      (k = msgs.length ↔ Separate tail frames) := by
  obtain ⟨k, hk, hcalls, hseparate⟩ := calls_of_frames hf
    (fun c hc => hne c (List.mem_append_right head hc)) htail
  refine ⟨_, (tail.foldl WSHandle.handleMessage {}).sent.flatten, k, hk,
    run_talking connId hr hne hhead ?_, rfl, ?_, hseparate⟩
  · rw [hcalls]
    exact not_handleClose_mem _
  · rw [sent_handleMessages rfl tail, hcalls]
    exact drain_echoes (hf.short_echoes (List.take_sublist k _))

variable (lib) in
/-- The first two bytes of a close frame end the session. -/
theorem handleRead_close {h : WSHandle} (hcur : h.curFrame = none) (before : Bytes)
    {mark len : UInt8} (hclose : (WSFrame.Header.ofBytes mark len).opcode = 0x8) (rest : Bytes) :
    ∃ h' : WSHandle, h'.sent = h.sent ∧
      handleRead lib connId (talking before h) (mark :: len :: rest) =
        .error (talking before h') := by
  have hread : (h.curFrame.getD {}).onRead (mark :: len :: rest) =
      (WSFrame.opened (WSFrame.Header.ofBytes mark len) rest, .handleClose) := by
    rw [hcur, Option.getD_none, WSFrame.onRead, WSFrame.onReadN_first _ rfl, if_pos hclose]
  have hstep : h.handleMessage (mark :: len :: rest) =
      { h with
        curFrame := some (WSFrame.opened (WSFrame.Header.ofBytes mark len) rest)
        calls := h.calls ++ [.handleClose] } := by
    simp only [WSHandle.handleMessage, hread]
  refine ⟨h.handleMessage (mark :: len :: rest), by rw [hstep], ?_⟩
  rw [handleRead_talking, if_pos (by rw [hstep, List.drop_left])]

/-- **A client that says goodbye**: its frames come in READ events of their own, and then a
close frame, whose first two bytes come together. All messages have been echoed when the
handler closes. -/
theorem run_farewell (hr : Upgrades lib r key host) {msgs : List (Bytes × Bytes)}
    {frames : List Bytes} (hf : ClientFrames msgs frames) {head tail : List Bytes}
    (hne : ∀ c ∈ head ++ tail, c ≠ []) (hhead : head.flatten = r.bytes)
    (htail : Separate tail frames) {mark len : UInt8}
    (hclose : (WSFrame.Header.ofBytes mark len).opcode = 0x8) (rest : Bytes) :
    ∃ s bs, Finishes lib connId (head ++ tail ++ [mark :: len :: rest]) s ∧
      s.sent = switchingProtocols lib connId key host ++ bs ∧
      BaseFrame.splitter.drain bs = ((msgs.map Prod.fst).map echoFrame, []) := by
  have htailne : ∀ c ∈ tail, c ≠ [] := fun c hc => hne c (List.mem_append_right head hc)
  obtain ⟨hcalls, hcur⟩ := messages_of_separate hf htailne htail
  obtain ⟨h', hsent, hread⟩ := handleRead_close lib connId hcur
    (switchingProtocols lib connId key host) hclose rest
  have htalk := run_talking connId hr hne hhead
    (hcalls ▸ not_handleClose_mem (msgs.map Prod.fst))
  refine ⟨_, h'.sent.flatten, ⟨_, _, _, rfl, htalk, hread, rfl⟩, rfl, ?_⟩
  · rw [hsent, sent_handleMessages rfl tail, hcalls]
    exact drain_echoes (hf.short_echoes (List.Sublist.refl _))

end Session

end MixServer.Script
