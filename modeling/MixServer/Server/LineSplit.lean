import MixServer.Server.HttpReads

/-!
The lines of an HTTP connection do not depend on how its stream is cut.

`Lines` says what the lines of a stream are without mentioning any reader: the
pieces that end at its leftmost CR LF pairs, and the part after the last pair.
A stream has exactly one such split, the one that draining it finds
(`lines_iff_drain`).

`HttpHandle` is `httpHandle` with the calls it makes into the script. Whatever
the script does, as long as it leaves the connection in line mode the calls are
the lines of everything received (`handleRead_lines`), and the loop comes to its
end. `readable_all_lines` is the same account of the whole server.
-/

namespace MixServer.Net

open Lib

/-! ### The lines of a stream -/

/-- A CR LF pair at index `i`. -/
def PairAt (q : Bytes) (i : Nat) : Prop := q[i]? = some 13 ∧ q[i + 1]? = some 10

/-- `find_CRLF` finds the leftmost pair. -/
theorem findCRLF_eq_some_iff {q : Bytes} {i : Nat} :
    findCRLF q = some i ↔ PairAt q i ∧ ∀ j < i, ¬ PairAt q j := by
  induction q using findCRLF.induct generalizing i with
  | case1 => simp [findCRLF, PairAt]
  | case2 b => simp [findCRLF, PairAt]
  | case3 a b rest hab =>
    have hzero : PairAt (a :: b :: rest) 0 := by simp [PairAt, hab]
    simp only [findCRLF, if_pos hab, Option.some.injEq]
    constructor
    · rintro rfl
      exact ⟨hzero, fun j hj => absurd hj (Nat.not_lt_zero j)⟩
    · rintro ⟨-, hfirst⟩
      rcases Nat.eq_zero_or_pos i with rfl | hi
      · rfl
      · exact absurd hzero (hfirst 0 hi)
  | case4 a b rest hab ih =>
    have hzero : ¬ PairAt (a :: b :: rest) 0 := by
      rintro ⟨ha, hb⟩
      exact hab (by simpa using And.intro ha hb)
    have hsucc : ∀ j, PairAt (a :: b :: rest) (j + 1) ↔ PairAt (b :: rest) j := fun j => Iff.rfl
    simp only [findCRLF, if_neg hab, Option.map_eq_some_iff]
    constructor
    · rintro ⟨i, hi, rfl⟩
      obtain ⟨hpair, hfirst⟩ := ih.mp hi
      refine ⟨(hsucc i).mpr hpair, ?_⟩
      intro j hj
      cases j with
      | zero => exact hzero
      | succ j => exact fun hp => hfirst j (by omega) ((hsucc j).mp hp)
    · rintro ⟨hpair, hfirst⟩
      cases i with
      | zero => exact absurd hpair hzero
      | succ i =>
        refine ⟨i, ih.mpr ⟨(hsucc i).mp hpair, ?_⟩, rfl⟩
        intro j hj hp
        exact hfirst (j + 1) (by omega) ((hsucc j).mpr hp)

theorem findCRLF_eq_none_iff {q : Bytes} : findCRLF q = none ↔ ∀ i, ¬ PairAt q i := by
  constructor
  · intro h i hi
    induction i using Nat.strongRecOn with
    | ind i ih =>
      have hsome : findCRLF q = some i := findCRLF_eq_some_iff.mpr ⟨hi, ih⟩
      rw [h] at hsome
      cases hsome
  · intro h
    cases hq : findCRLF q with
    | none => rfl
    | some i => exact absurd (findCRLF_eq_some_iff.mp hq).1 (h i)

/-- The bytes CR LF. -/
def crlf : Bytes := [13, 10]

/-- The split of a stream: each line ends at the leftmost pair after the line
before it, and no pair is left. -/
structure Lines (stream : Bytes) (lines : List Bytes) (rest : Bytes) : Prop where
  whole : stream = (lines.map (· ++ crlf)).flatten ++ rest
  leftmost : ∀ line ∈ lines, ∀ j < line.length, ¬ PairAt (line ++ crlf) j
  open_ : ∀ j, ¬ PairAt rest j

/-- The first pair of a stream that begins with a line is the one that ends it. -/
theorem findCRLF_line {line : Bytes} (hline : ∀ j < line.length, ¬ PairAt (line ++ crlf) j)
    (tail : Bytes) : findCRLF (line ++ crlf ++ tail) = some line.length := by
  apply findCRLF_append
  rw [findCRLF_eq_some_iff]
  exact ⟨by simp [PairAt, crlf], hline⟩

/-- What comes before the leftmost pair is a line. -/
theorem line_of_findCRLF {q : Bytes} {i : Nat} (h : findCRLF q = some i) :
    q = q.take i ++ crlf ++ q.drop (i + 2) ∧
      ∀ j < (q.take i).length, ¬ PairAt (q.take i ++ crlf) j := by
  obtain ⟨⟨hcr, hlf⟩, hfirst⟩ := findCRLF_eq_some_iff.mp h
  obtain ⟨hi, hcr⟩ := List.getElem?_eq_some_iff.mp hcr
  obtain ⟨hi', hlf⟩ := List.getElem?_eq_some_iff.mp hlf
  have hdrop : q.drop i = crlf ++ q.drop (i + 2) := by
    rw [List.drop_eq_getElem_cons hi, List.drop_eq_getElem_cons hi', hcr, hlf]
    rfl
  have hwhole : q = q.take i ++ crlf ++ q.drop (i + 2) := by
    rw [List.append_assoc, ← hdrop, List.take_append_drop]
  refine ⟨hwhole, ?_⟩
  intro j hj hpair
  have hlen : (q.take i).length ≤ i := List.length_take_le i q
  refine hfirst j (by omega) ?_
  rw [hwhole]
  have hshort : j + 1 < (q.take i ++ crlf).length := by
    simp only [List.length_append, crlf, List.length_cons, List.length_nil]
    omega
  exact ⟨by rw [List.getElem?_append_left (by omega)]; exact hpair.1,
    by rw [List.getElem?_append_left hshort]; exact hpair.2⟩

theorem lines_nil_iff {stream rest : Bytes} :
    Lines stream [] rest ↔ stream = rest ∧ ∀ j, ¬ PairAt rest j := by
  constructor
  · intro h
    exact ⟨h.whole, h.open_⟩
  · rintro ⟨rfl, hopen⟩
    exact ⟨rfl, by simp, hopen⟩

theorem lines_cons_iff {stream rest line : Bytes} {lines : List Bytes} :
    Lines stream (line :: lines) rest ↔
      (∀ j < line.length, ¬ PairAt (line ++ crlf) j) ∧
        ∃ tail, stream = line ++ crlf ++ tail ∧ Lines tail lines rest := by
  constructor
  · intro h
    refine ⟨h.leftmost line List.mem_cons_self, (lines.map (· ++ crlf)).flatten ++ rest, ?_, ?_⟩
    · rw [h.whole, List.map_cons, List.flatten_cons, List.append_assoc]
    · exact ⟨rfl, fun l hl => h.leftmost l (List.mem_cons_of_mem _ hl), h.open_⟩
  · rintro ⟨hline, tail, rfl, h⟩
    constructor
    · rw [List.map_cons, List.flatten_cons, List.append_assoc (line ++ crlf), ← h.whole]
    · intro l hl
      rcases List.mem_cons.mp hl with rfl | hl
      · exact hline
      · exact h.leftmost l hl
    · exact h.open_

/-- **A stream has exactly one split**, the one that draining it finds. -/
theorem lines_iff_drain {stream rest : Bytes} {lines : List Bytes} :
    Lines stream lines rest ↔ crlfLines.drain stream = (lines, rest) := by
  constructor
  · intro h
    induction lines generalizing stream with
    | nil =>
      obtain ⟨rfl, hopen⟩ := lines_nil_iff.mp h
      apply crlfLines.drain_of_none
      simp [crlfLines, findCRLF_eq_none_iff.mpr hopen]
    | cons line lines ih =>
      obtain ⟨hline, tail, rfl, htail⟩ := lines_cons_iff.mp h
      have hdrop : (line ++ crlf ++ tail).drop (line.length + 2) = tail :=
        List.drop_left' (by simp [crlf])
      have hnext : crlfLines.next (line ++ crlf ++ tail) = some (line, tail) := by
        simp only [crlfLines, findCRLF_line hline tail, Option.map_some, hdrop]
        rw [List.append_assoc, List.take_left' rfl]
      rw [crlfLines.drain_of_some hnext, ih htail]
  · intro h
    induction stream using Splitter.drain.induct crlfLines generalizing lines with
    | case1 stream hnext =>
      rw [crlfLines.drain_of_none hnext] at h
      cases h
      rw [lines_nil_iff]
      exact ⟨rfl, findCRLF_eq_none_iff.mp (Option.map_eq_none_iff.mp hnext)⟩
    | case2 stream line tail hnext _ ih =>
      rw [crlfLines.drain_of_some hnext] at h
      cases h
      obtain ⟨i, hi, heq⟩ := Option.map_eq_some_iff.mp hnext
      cases heq
      obtain ⟨hwhole, hline⟩ := line_of_findCRLF hi
      exact lines_cons_iff.mpr ⟨hline, _, hwhole, ih rfl⟩

end MixServer.Net

namespace MixServer.Server.HttpServer

open Lib Net

/-! ### `httpHandle` -/

/-- The calls that `httpHandle::handle_read` makes into the script. -/
inductive PyCall where
  | handleLine (s : Bytes)
  | handleMessage (s : Bytes)
deriving DecidableEq, Repr

/-- The readable bytes of `pstream->pread_buf`, and the calls made so far. -/
structure HttpHandle where
  preadBuf : Bytes := []
  calls : List PyCall := []
deriving DecidableEq, Repr

/-- The assertion of `handle_read` in message mode, and a line loop that has not
come to its end. -/
inductive HandleAbort where
  | emptyMessage
  | unfinished
deriving DecidableEq, Repr

namespace HttpHandle

/-- The loop of `httpHandle::handle_read`, cut off after so many turns. -/
def lineLoop : Nat → HttpHandle → Except HandleAbort HttpHandle
  | 0, _ => .error .unfinished
  | turns + 1, h =>
      match findCRLF h.preadBuf with
      | none => .ok h
      | some idx =>
          lineLoop turns {
            preadBuf := h.preadBuf.drop (idx + 2)
            calls := h.calls ++ [.handleLine (h.preadBuf.take idx)] }

/-- `httpHandle::handle_read`. What the script has done to
`p_sender->reading_line` depends on the calls it has got. -/
def handleRead (readingLine : List PyCall → Bool) (turns : Nat) (h : HttpHandle) :
    Except HandleAbort HttpHandle :=
  if readingLine h.calls then
    lineLoop turns h
  else if h.preadBuf = [] then
    .error .emptyMessage
  else
    .ok { preadBuf := [], calls := h.calls ++ [.handleMessage h.preadBuf] }

/-- A chunk is appended to `pread_buf` and `handle_read` runs. -/
def arrive (readingLine : List PyCall → Bool) (turns : Nat) (h : HttpHandle) (chunk : Bytes) :
    Except HandleAbort HttpHandle :=
  handleRead readingLine turns { h with preadBuf := h.preadBuf ++ chunk }

/-- The connection is in line mode when `handle_read` looks. -/
def InLineMode (readingLine : List PyCall → Bool) (h : HttpHandle) (_chunk : Bytes) : Prop :=
  readingLine h.calls = true

instance (readingLine : List PyCall → Bool) (h : HttpHandle) (chunk : Bytes) :
    Decidable (InLineMode readingLine h chunk) := inferInstanceAs (Decidable (_ = true))

/-- The loop hands over the complete lines and keeps the rest. A line takes at
least two bytes, so there are fewer turns than bytes and one to find no pair. -/
theorem lineLoop_drain {turns : Nat} (h : HttpHandle) (hturns : h.preadBuf.length < turns) :
    lineLoop turns h = .ok {
      preadBuf := (crlfLines.drain h.preadBuf).2
      calls := h.calls ++ (crlfLines.drain h.preadBuf).1.map .handleLine } := by
  induction turns generalizing h with
  | zero => exact absurd hturns (Nat.not_lt_zero _)
  | succ turns ih =>
    simp only [lineLoop]
    cases hidx : findCRLF h.preadBuf with
    | none =>
      rw [crlfLines.drain_of_none (crlfLines_next_of_none hidx), List.map_nil, List.append_nil]
    | some idx =>
      have hlt := findCRLF_lt hidx
      rw [crlfLines.drain_of_some (crlfLines_next_of_some hidx)]
      dsimp only
      rw [ih _ (by rw [List.length_drop]; omega)]
      simp only [List.map_cons, List.append_assoc, List.singleton_append]

/-- The handle has made the calls for the lines of `seen` and keeps the rest. -/
def Split (seen : Bytes) (h : HttpHandle) : Prop :=
  ∃ lines, Lines seen lines h.preadBuf ∧ h.calls = lines.map .handleLine

theorem split_empty : Split [] {} :=
  ⟨[], lines_iff_drain.mpr crlfLines_drain_nil, rfl⟩

variable {readingLine : List PyCall → Bool}

/-- One chunk: what had no end yet is continued. -/
theorem arrive_split {seen : Bytes} {h : HttpHandle} (hsplit : Split seen h)
    {chunk : Bytes} (hmode : InLineMode readingLine h chunk) {turns : Nat}
    (hturns : h.preadBuf.length + chunk.length < turns) :
    ∃ h', arrive readingLine turns h chunk = .ok h' ∧ Split (seen ++ chunk) h' := by
  obtain ⟨lines, hlines, hcalls⟩ := hsplit
  have hdrain := crlfLines.drain_append seen chunk
  rw [lines_iff_drain.mp hlines] at hdrain
  rw [arrive, handleRead, if_pos (by exact hmode), lineLoop_drain _ (by simpa using hturns)]
  refine ⟨_, rfl, _, lines_iff_drain.mpr hdrain, ?_⟩
  rw [List.map_append, ← hcalls]

theorem Split.length_le {seen : Bytes} {h : HttpHandle} (hsplit : Split seen h) :
    h.preadBuf.length ≤ seen.length := by
  obtain ⟨lines, hlines, -⟩ := hsplit
  rw [hlines.whole, List.length_append]
  omega

/-- The chunks of a stream, one after the other. -/
theorem arrive_all_split {turns : Nat} {seen : Bytes} {h : HttpHandle} (hsplit : Split seen h)
    {chunks : List Bytes}
    (hmode : Every (arrive readingLine turns) (InLineMode readingLine) h chunks)
    (hturns : seen.length + chunks.flatten.length < turns) :
    ∃ h', exec (arrive readingLine turns) h chunks = .ok h' ∧
      Split (seen ++ chunks.flatten) h' := by
  induction chunks generalizing h seen with
  | nil => exact ⟨h, rfl, by simpa using hsplit⟩
  | cons chunk chunks ih =>
    rw [List.flatten_cons, List.length_append] at hturns
    have hlen := hsplit.length_le
    have hturns₁ : h.preadBuf.length + chunk.length < turns := by omega
    obtain ⟨h₁, hstep, hsplit₁⟩ := arrive_split hsplit hmode.1 hturns₁
    rw [exec_cons_ok hstep, List.flatten_cons, ← List.append_assoc]
    exact ih hsplit₁ (hmode.2 h₁ hstep) (by rw [List.length_append]; omega)

/-- **Line splitting does not depend on fragmentation.** However a stream is cut
into chunks, while the connection stays in line mode every `handle_read` returns,
the calls made are those for the lines of the stream, in order, each once, and
what follows the last line is left readable. -/
theorem handleRead_lines (readingLine : List PyCall → Bool) (chunks : List Bytes) {turns : Nat}
    (hturns : chunks.flatten.length < turns)
    (hmode : Every (arrive readingLine turns) (InLineMode readingLine) {} chunks) :
    ∃ h lines, exec (arrive readingLine turns) {} chunks = .ok h ∧
      Lines chunks.flatten lines h.preadBuf ∧ h.calls = lines.map .handleLine := by
  obtain ⟨h, hrun, lines, hlines, hcalls⟩ :=
    arrive_all_split split_empty hmode (by rwa [List.length_nil, Nat.zero_add])
  exact ⟨h, lines, hrun, hlines, hcalls⟩

/-- An empty line whose pair is cut, CR CR LF, and a lone LF and CR at the end. -/
theorem handleRead_lines_cut :
    ∃ h lines, exec (arrive (fun _ => true) 9) {} [[13], [10, 65, 13], [13, 10], [10, 13]] = .ok h ∧
      Lines [13, 10, 65, 13, 13, 10, 10, 13] lines h.preadBuf ∧ h.calls = lines.map .handleLine :=
  handleRead_lines (fun _ => true) [[13], [10, 65, 13], [13, 10], [10, 13]] (by decide)
    (every_of_forall fun _ _ => rfl)

end HttpHandle

/-! ### The whole server -/

/-- What the server hands over for a connection, and what it keeps, is the split
of the stream of that connection, while the script spares it. -/
theorem readable_all_lines {script : Script} {w : TcpServer HttpHandles} {a : Nat}
    (hscript : ∀ t, ∀ act ∈ script t, Spares a act) (hfresh : Lined a [] w)
    (chunks : List Bytes) :
    Ensures (exec (readable (httpServer script)) w (chunks.map fun c => (a, c)))
      (fun w' => Lines chunks.flatten (linesOf a w'.trace) (w'.heap a).preadBuf)
      (fun _ => False) := by
  refine (readable_all_lined hscript hfresh chunks).mono ?_ fun _ => id
  intro w' h
  rw [List.nil_append] at h
  rw [lines_iff_drain, h.lines, h.rest]

end MixServer.Server.HttpServer
