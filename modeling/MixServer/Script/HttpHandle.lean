import MixServer.Lib.Bytes
import Mathlib.Data.List.Infix

/-!
`HttpHandle.handle_line` (`script/httphandle.py`): the lines of HTTP requests are
collected in a `cStringIO.StringIO`, and at each empty line the base class's
`handle_one_request` reads a request from the same object.

`own_lines_iff` says exactly when every call reads the lines of its own request:
when all requests of the connection are the same bytes, because the object is
read from its start each time and is never emptied.
-/

namespace MixServer.Script

open Lib

/-! ### The string buffer -/

/-- `cStringIO.StringIO`: bytes and one position, for reading and for writing. -/
structure StringIo where
  buf : Bytes := []
  pos : Nat := 0
  inside : pos ≤ buf.length := by simp

namespace StringIo

/-- `write` overwrites from the position on. -/
def write (f : StringIo) (s : Bytes) : StringIo where
  buf := f.buf.take f.pos ++ s ++ f.buf.drop (f.pos + s.length)
  pos := f.pos + s.length
  inside := by
    have := f.inside
    simp only [List.length_append, List.length_take, List.length_drop]
    omega

/-- `seek(0)`. -/
def rewind (f : StringIo) : StringIo := { f with pos := 0, inside := Nat.zero_le _ }

/-- What a reader that starts at the position can read. -/
def unread (f : StringIo) : Bytes := f.buf.drop f.pos

/-- A reader has taken `n` bytes. -/
def advance (f : StringIo) (n : Nat) : StringIo where
  buf := f.buf
  pos := min (f.pos + n) f.buf.length
  inside := Nat.min_le_right _ _

/-- The position is between `before` and `after`. -/
structure At (f : StringIo) (before after : Bytes) : Prop where
  buf : f.buf = before ++ after
  pos : f.pos = before.length

theorem At.write {f : StringIo} {before after : Bytes} (h : f.At before after) (s : Bytes) :
    (f.write s).At (before ++ s) (after.drop s.length) := by
  constructor
  · simp only [StringIo.write, h.buf, h.pos, List.take_left', List.drop_append]
    simp
  · simp only [StringIo.write, h.pos, List.length_append]

theorem At.unread_rewind {f : StringIo} {before after : Bytes} (h : f.At before after) :
    f.rewind.unread = before ++ after := by
  simp [rewind, unread, h.buf]

/-- Reading what stands at the start of the buffer. -/
theorem At.advance_rewind {f : StringIo} {s after : Bytes} (h : f.buf = s ++ after) :
    (f.rewind.advance s.length).At s after := by
  constructor
  · simp [rewind, advance, h]
  · simp [rewind, advance, h]

end StringIo

/-! ### Reading one request -/

/-- The lines `readline` finds: each ends with its line feed, the last one where
the bytes end. -/
def readlines : Bytes → List Bytes
  | [] => []
  | b :: bs =>
      if b = 10 then [b] :: readlines bs
      else
        match readlines bs with
        | [] => [[b]]
        | line :: lines => (b :: line) :: lines

/-- The elements through the first one that satisfies `p`. -/
def takeThrough (p : Bytes → Bool) : List Bytes → List Bytes
  | [] => []
  | line :: lines => if p line then [line] else line :: takeThrough p lines

/-- The lines that end the headers. -/
def blank (line : Bytes) : Bool := line = [13, 10] || line = [10]

/-- What `BaseHTTPRequestHandler.handle_one_request` takes from the bytes it can
read: the request line, and the headers through the first empty line. -/
def oneRequest (bs : Bytes) : Bytes :=
  match readlines bs with
  | [] => []
  | requestLine :: lines => requestLine ++ (takeThrough blank lines).flatten

theorem flatten_readlines (bs : Bytes) : (readlines bs).flatten = bs := by
  induction bs with
  | nil => rfl
  | cons b bs ih =>
    simp only [readlines]
    split
    · simp [ih]
    · split
      · rename_i hnil
        rw [hnil] at ih
        simp [← ih]
      · rename_i line lines hcons
        rw [hcons] at ih
        simp [← ih]

/-- A line feed ends a line, whatever follows it. -/
theorem readlines_append_lf (bs cs : Bytes) :
    readlines (bs ++ 10 :: cs) = readlines (bs ++ [10]) ++ readlines cs := by
  induction bs with
  | nil => simp [readlines]
  | cons b bs ih =>
    simp only [List.cons_append, readlines, ih]
    split
    · rfl
    · cases hlines : readlines (bs ++ [10]) with
      | nil =>
        have hflat := flatten_readlines (bs ++ [10])
        rw [hlines] at hflat
        simp at hflat
      | cons line lines => rfl

theorem takeThrough_append {p : Bytes → Bool} {last : Bytes} (hp : p last)
    (lines more : List Bytes) :
    takeThrough p (lines ++ last :: more) = takeThrough p (lines ++ [last]) := by
  induction lines with
  | nil => simp [takeThrough, hp]
  | cons line lines ih =>
    simp only [List.cons_append, takeThrough]
    split
    · rfl
    · rw [ih]

theorem takeThrough_prefix (p : Bytes → Bool) (lines : List Bytes) :
    takeThrough p lines <+: lines := by
  induction lines with
  | nil => exact List.prefix_rfl
  | cons line lines ih =>
    simp only [takeThrough]
    split
    · simp
    · rw [List.cons_prefix_cons]
      exact ⟨rfl, ih⟩

/-- Everything up to the last element is taken exactly when nothing before it
satisfies `p`. -/
theorem takeThrough_eq_iff {p : Bytes → Bool} (lines : List Bytes) (last : Bytes) :
    takeThrough p (lines ++ [last]) = lines ++ [last] ↔ ∀ line ∈ lines, ¬ p line := by
  induction lines with
  | nil => simp [takeThrough]
  | cons line lines ih =>
    by_cases hp : p line
    · simp [takeThrough, hp]
    · simp [takeThrough, hp, ih]

/-! ### The handle -/

/-- `"\r\n"`. -/
def crlf : Bytes := [13, 10]

/-- The fields of `HttpHandle` that reading uses, and what each call of
`handle_one_request` made so far has read. -/
structure HttpHandle where
  rbuf : StringIo := {}
  requests : List Bytes := []

/-- The lines of one request as they are fed, without the empty line at the end. -/
structure Request where
  lines : List Bytes
  hasRequestLine : lines ≠ []
  nonempty : ∀ line ∈ lines, line ≠ []

/-- The request as bytes: each line, and the empty line, ended by CR LF. -/
def Request.bytes (r : Request) : Bytes := (r.lines.map (· ++ crlf)).flatten ++ crlf

/-- No line that `readline` finds between the request line and the end of the
request is empty. -/
def Request.SelfDelimiting (r : Request) : Prop :=
  ∀ line ∈ (readlines r.bytes).tail.dropLast, ¬ blank line

instance (r : Request) : Decidable r.SelfDelimiting :=
  inferInstanceAs (Decidable (∀ line ∈ _, ¬ _))

namespace HttpHandle

/-- `handle_one_request`: reads from `rfile`, which is `rbuf`. -/
def handleOneRequest (h : HttpHandle) : HttpHandle where
  rbuf := h.rbuf.advance (oneRequest h.rbuf.unread).length
  requests := h.requests ++ [oneRequest h.rbuf.unread]

/-- `HttpHandle.handle_line`. -/
def handleLine (h : HttpHandle) (line : Bytes) : HttpHandle :=
  let h := { h with rbuf := h.rbuf.write (line ++ crlf) }
  if line.length = 0 then
    { h with rbuf := (h.rbuf.write crlf).rewind }.handleOneRequest
  else
    h

/-- The lines of one request and the empty line, one call each. -/
def feed (h : HttpHandle) (r : Request) : HttpHandle := (r.lines ++ [[]]).foldl handleLine h

/-! ### One request -/

variable {h : HttpHandle} {before after : Bytes}

/-- The lines before the empty one are collected. -/
theorem foldl_handleLine (hat : h.rbuf.At before after) {lines : List Bytes}
    (hne : ∀ line ∈ lines, line ≠ []) :
    ∃ after',
      (lines.foldl handleLine h).rbuf.At (before ++ (lines.map (· ++ crlf)).flatten) after' ∧
      (lines.foldl handleLine h).requests = h.requests := by
  induction lines generalizing h before after with
  | nil => exact ⟨after, by simpa using hat, rfl⟩
  | cons line lines ih =>
    have hline : line.length ≠ 0 := by
      intro hzero
      exact hne line List.mem_cons_self (List.length_eq_zero_iff.mp hzero)
    have hstep : h.handleLine line = { h with rbuf := h.rbuf.write (line ++ crlf) } := by
      simp only [handleLine, if_neg hline]
    obtain ⟨after', hat', hreq⟩ := ih (h := { h with rbuf := h.rbuf.write (line ++ crlf) })
      (hat.write (line ++ crlf)) fun l hl => hne l (List.mem_cons_of_mem _ hl)
    rw [List.foldl_cons, hstep]
    refine ⟨after', ?_, hreq⟩
    simpa using hat'

/-- The call for the empty line reads from the start of everything collected. -/
theorem feed_spec (hat : h.rbuf.At before after) (r : Request) :
    ∃ rest, (h.feed r).requests = h.requests ++ [oneRequest (before ++ r.bytes ++ rest)] ∧
      ∀ s more, oneRequest (before ++ r.bytes ++ rest) = s → before ++ r.bytes ++ rest = s ++ more →
        (h.feed r).rbuf.At s more := by
  obtain ⟨after', hat', hreq⟩ := foldl_handleLine hat r.nonempty
  have hfull := (hat'.write crlf).write crlf
  have hcontent := hfull.unread_rewind
  simp only [List.append_assoc] at hcontent
  refine ⟨crlf ++ (after'.drop crlf.length).drop crlf.length, ?_, ?_⟩
  · simp [feed, handleLine, handleOneRequest, hreq, Request.bytes, hcontent]
  · intro s more hs hsplit
    have hbuf : ((((r.lines.foldl handleLine h).rbuf.write crlf).write crlf)).buf = s ++ more := by
      rw [hfull.buf, ← hsplit]
      simp [Request.bytes]
    have hread := StringIo.At.advance_rewind hbuf
    rw [← hs] at hread
    simpa [feed, handleLine, handleOneRequest, Request.bytes, hcontent, ← hs] using hread

/-- Requests read are never forgotten. -/
theorem requests_prefix_feed (h : HttpHandle) (rs : List Request) :
    h.requests <+: (rs.foldl feed h).requests := by
  have hline : ∀ (h : HttpHandle) line, h.requests <+: (h.handleLine line).requests := by
    intro h line
    simp only [handleLine]
    split
    · exact List.prefix_append _ _
    · exact List.prefix_rfl
  have hlines : ∀ (lines : List Bytes) (h : HttpHandle),
      h.requests <+: (lines.foldl handleLine h).requests := by
    intro lines
    induction lines with
    | nil => exact fun h => List.prefix_rfl
    | cons line lines ih => exact fun h => (hline h line).trans (ih _)
  induction rs generalizing h with
  | nil => exact List.prefix_rfl
  | cons r rs ih => exact (hlines _ h).trans (ih _)

/-! ### What is read back -/

/-- The lines `readline` finds in a request, whatever follows it: the last one
is the empty line. -/
theorem readlines_bytes (r : Request) :
    ∃ requestLine lines, ∀ rest,
      readlines (r.bytes ++ rest) = requestLine :: (lines ++ crlf :: readlines rest) := by
  obtain ⟨init, last, hlines⟩ := List.eq_nil_or_concat r.lines |>.resolve_left r.hasRequestLine
  have hbytes : ∀ rest, r.bytes ++ rest =
      ((init.map (· ++ crlf)).flatten ++ last ++ [13]) ++ 10 :: ([13] ++ 10 :: rest) := by
    intro rest
    simp [Request.bytes, hlines, crlf]
  have hread : ∀ rest, readlines (r.bytes ++ rest) =
      readlines (((init.map (· ++ crlf)).flatten ++ last ++ [13]) ++ [10]) ++
        crlf :: readlines rest := by
    intro rest
    rw [hbytes, readlines_append_lf, readlines_append_lf [13] rest]
    rfl
  cases hfirst : readlines (((init.map (· ++ crlf)).flatten ++ last ++ [13]) ++ [10]) with
  | nil =>
    have hflat := flatten_readlines (((init.map (· ++ crlf)).flatten ++ last ++ [13]) ++ [10])
    rw [hfirst] at hflat
    simp at hflat
  | cons requestLine lines =>
    refine ⟨requestLine, lines, ?_⟩
    intro rest
    rw [hread, hfirst]
    rfl

/-- What is read of a request does not depend on what follows it, and is a
prefix of it. -/
theorem oneRequest_bytes_append (r : Request) (rest : Bytes) :
    oneRequest (r.bytes ++ rest) = oneRequest r.bytes := by
  obtain ⟨requestLine, lines, hread⟩ := readlines_bytes r
  have halone := hread []
  rw [List.append_nil] at halone
  simp only [oneRequest, hread rest, halone]
  rw [takeThrough_append rfl lines (readlines rest), takeThrough_append rfl lines (readlines [])]

/-- A self-delimiting request is read to its end, and no other is. -/
theorem oneRequest_eq_iff (r : Request) : oneRequest r.bytes = r.bytes ↔ r.SelfDelimiting := by
  obtain ⟨requestLine, lines, hread⟩ := readlines_bytes r
  have halone : readlines r.bytes = requestLine :: (lines ++ [crlf]) := by
    have := hread []
    simpa [readlines] using this
  have hflat := flatten_readlines r.bytes
  rw [halone] at hflat
  have hself : r.SelfDelimiting ↔ ∀ line ∈ lines, ¬ blank line := by
    simp [Request.SelfDelimiting, halone]
  rw [hself, ← takeThrough_eq_iff lines crlf]
  constructor
  · intro h
    -- what is left unread would have to be lines without a byte
    obtain ⟨left, hleft⟩ := takeThrough_prefix blank (lines ++ [crlf])
    simp only [oneRequest, halone] at h
    rw [← hflat, List.flatten_cons, ← hleft, List.flatten_append, hleft] at h
    have hnone : left.flatten = [] := by simpa using h
    rcases List.eq_nil_or_concat left with rfl | ⟨init, last, rfl⟩
    · simpa using hleft
    · obtain rfl : last = crlf := by
        rw [List.concat_eq_append, ← List.append_assoc] at hleft
        exact List.singleton_inj.mp (List.append_inj' hleft rfl).2
      simp [crlf] at hnone
  · intro h
    simp only [oneRequest, halone, h]
    exact hflat

/-- A line without a line feed in it is read as one line. -/
theorem readlines_line {line : Bytes} (hline : 10 ∉ line) (rest : Bytes) :
    readlines (line ++ crlf ++ rest) = (line ++ crlf) :: readlines rest := by
  induction line with
  | nil => rfl
  | cons b line ih =>
    rw [List.mem_cons, not_or] at hline
    simp only [List.cons_append, readlines, if_neg (Ne.symm hline.1), ih hline.2]

theorem readlines_lines {lines : List Bytes} (hlines : ∀ line ∈ lines, 10 ∉ line) (rest : Bytes) :
    readlines ((lines.map (· ++ crlf)).flatten ++ rest) =
      lines.map (· ++ crlf) ++ readlines rest := by
  induction lines with
  | nil => rfl
  | cons line lines ih =>
    have hrest := ih fun l hl => hlines l (List.mem_cons_of_mem _ hl)
    rw [List.map_cons, List.flatten_cons, List.append_assoc,
      readlines_line (hlines line List.mem_cons_self), hrest]
    rfl

/-- Requests whose lines hold no line feed are self-delimiting. -/
theorem selfDelimiting_of_lf_free {r : Request} (hlf : ∀ line ∈ r.lines, 10 ∉ line) :
    r.SelfDelimiting := by
  have hread : readlines r.bytes = r.lines.map (· ++ crlf) ++ [crlf] :=
    readlines_lines hlf crlf
  obtain ⟨first, lines, hfirst⟩ := List.exists_cons_of_ne_nil r.hasRequestLine
  intro line hline
  rw [hread, hfirst, List.map_cons, List.cons_append, List.tail_cons, List.dropLast_concat] at hline
  obtain ⟨l, hl, rfl⟩ := List.mem_map.mp hline
  have hne := r.nonempty l (hfirst ▸ List.mem_cons_of_mem _ hl)
  cases l with
  | nil => exact absurd rfl hne
  | cons b l => cases l <;> simp [blank, crlf]

/-- After a request that is the first one again, and self-delimiting, the
position stands behind it. -/
theorem feed_again {r₁ r : Request} (hself : r₁.SelfDelimiting)
    (hat : h.rbuf.At before after) (hbefore : before = [] ∧ r = r₁ ∨ before = r₁.bytes) :
    (h.feed r).requests = h.requests ++ [r₁.bytes] ∧
      ∃ more, (h.feed r).rbuf.At r₁.bytes more := by
  obtain ⟨rest, hreq, hrbuf⟩ := feed_spec hat r
  have hcontent : ∃ more, before ++ r.bytes ++ rest = r₁.bytes ++ more := by
    rcases hbefore with ⟨rfl, rfl⟩ | rfl
    · exact ⟨rest, by simp⟩
    · exact ⟨r.bytes ++ rest, by simp⟩
  obtain ⟨more, hmore⟩ := hcontent
  have hread : oneRequest (before ++ r.bytes ++ rest) = r₁.bytes := by
    rw [hmore, oneRequest_bytes_append]
    exact (oneRequest_eq_iff r₁).mpr hself
  constructor
  · rw [hreq, hread]
  · exact ⟨more, hrbuf _ _ hread hmore⟩

/-- Every later call reads the first request again. -/
theorem feed_rest {r₁ : Request} (hself : r₁.SelfDelimiting) (hat : h.rbuf.At r₁.bytes after)
    (rs : List Request) :
    (rs.foldl feed h).requests = h.requests ++ rs.map fun _ => r₁.bytes := by
  induction rs generalizing h after with
  | nil => simp
  | cons r rs ih =>
    obtain ⟨hreq, more, hnext⟩ := feed_again (r := r) hself hat (.inr rfl)
    rw [List.foldl_cons, ih hnext, hreq]
    simp

theorem at_start : ({} : HttpHandle).rbuf.At [] [] := ⟨rfl, rfl⟩

/-- The first call reads from the first request and nothing else. -/
theorem feed_first (r : Request) : (feed {} r).requests = [oneRequest r.bytes] := by
  obtain ⟨rest, hreq, -⟩ := feed_spec at_start r
  rw [hreq, List.nil_append (r.bytes), oneRequest_bytes_append]
  rfl

/-- **Each call reads its own request** exactly when all requests of the
connection are the bytes of the first one, and that one is read to its end. -/
theorem own_lines_iff (rs : List Request) :
    (rs.foldl feed {}).requests = rs.map Request.bytes ↔
      ∀ r₁ ∈ rs.head?, r₁.SelfDelimiting ∧ ∀ r ∈ rs, r.bytes = r₁.bytes := by
  cases rs with
  | nil => simp
  | cons r₁ rs =>
    simp only [List.head?_cons, Option.mem_def, Option.some.injEq, forall_eq', List.mem_cons,
      forall_eq_or_imp, true_and, List.foldl_cons, List.map_cons]
    by_cases hself : r₁.SelfDelimiting
    · obtain ⟨hreq, more, hat⟩ := feed_again hself at_start (.inl ⟨rfl, rfl⟩)
      rw [feed_rest hself hat rs, hreq]
      constructor
      · intro h
        refine ⟨hself, ?_⟩
        intro r hr
        have hmap : rs.map (fun _ => r₁.bytes) = rs.map Request.bytes := by simpa using h
        exact (List.map_inj_left.mp hmap r hr).symm
      · rintro ⟨-, h⟩
        have hmap : rs.map (fun _ => r₁.bytes) = rs.map Request.bytes :=
          List.map_inj_left.mpr fun r hr => (h r hr).symm
        simp [hmap]
    · simp only [hself, false_and, iff_false]
      intro h
      have hfirst := requests_prefix_feed (feed {} r₁) rs
      rw [h, feed_first, List.cons_prefix_cons] at hfirst
      exact hself ((oneRequest_eq_iff r₁).mp hfirst.1)

/-- A `POST / HTTP/1.1`, which nothing answers by closing the connection, and a
`GET / HTTP/1.1`: at the end of the second, the first is read again. -/
theorem own_lines_post_get :
    ¬ ∀ rs : List Request, (rs.foldl feed {}).requests = rs.map Request.bytes := by
  intro h
  have hrun := h [
    ⟨[[80, 79, 83, 84, 32, 47, 32, 72, 84, 84, 80, 47, 49, 46, 49]], by decide, by decide⟩,
    ⟨[[71, 69, 84, 32, 47, 32, 72, 84, 84, 80, 47, 49, 46, 49]], by decide, by decide⟩]
  revert hrun
  decide

end HttpHandle

end MixServer.Script
