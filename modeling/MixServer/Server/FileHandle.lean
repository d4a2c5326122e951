import MixServer.Lib.Bytes
import MixServer.Lib.Run

/-!
`FileHandle::handle_modify` (`server/handles.cpp`): a changed file is read into an array
of 4096 bytes on the stack, and logged.

Each `::read` is told that it may store 1024 bytes, and only then is `size` compared with
the size of the array. The calls stay inside the array exactly for files that leave room
for one more full block, `inside_iff`. What is read is logged by `Log::debug`
(`utils/log.cpp`), which puts each line together in arrays of 1024 bytes without a check,
and stops at a zero byte.
-/

namespace MixServer

open Lib

/-! ### `Log` -/

namespace Log

/-- `Log::buf_size`. -/
def bufSize : Nat := 1024

inductive Fault where
  /-- `vsprintf` or `sprintf` has stored past the end of its array. -/
  | overrun
deriving DecidableEq, Repr

/-- `struct tm`, the fields that are logged. -/
structure Tm where
  year : Int
  mon : Int
  mday : Int
  hour : Int
  min : Int
  sec : Int

/-- `datetime`; it is never longer than its 100 bytes. -/
def datetime (t : Tm) : Bytes :=
  text (toString (t.year + 1900)) ++ text "-" ++ text (toString (t.mon + 1)) ++ text "-" ++
    text (toString t.mday) ++ text " " ++ text (toString t.hour) ++ text ":" ++
    text (toString t.min) ++ text ":" ++ text (toString t.sec)

/-- The line of `Log::format_log`. -/
def line (tag filename : Bytes) (fileline : Nat) (t : Tm) (msg : Bytes) : Bytes :=
  text "[" ++ tag ++ text "][" ++ datetime t ++ text "][FILE:" ++ filename ++ text ":" ++
    text (toString fileline) ++ text ":]" ++ msg ++ text "\n"

/-- A string of this length, and the zero after it, is stored into an array of
`bufSize` bytes. -/
def sprintf (s : Bytes) : Except Fault Bytes :=
  if s.length < bufSize then .ok s else .error .overrun

/-- `Log::debug`: `msg` is what `vsprintf` makes of the format and its arguments. -/
def debug (filename : Bytes) (fileline : Nat) (t : Tm) (msg : Bytes) : Except Fault Bytes := do
  let msgbuf ← sprintf msg
  sprintf (line (text "debug") filename fileline t msgbuf)

/-- The line fits into its array; then so does the message in it. -/
def Fits (filename : Bytes) (fileline : Nat) (t : Tm) (msg : Bytes) : Prop :=
  (line (text "debug") filename fileline t msg).length < bufSize

variable {filename msg : Bytes} {fileline : Nat} {t : Tm}

theorem Fits.length_lt (h : Fits filename fileline t msg) : msg.length < bufSize := by
  simp only [Fits, line, List.length_append] at h
  omega

theorem debug_of_fits (h : Fits filename fileline t msg) :
    debug filename fileline t msg = .ok (line (text "debug") filename fileline t msg) := by
  rw [debug, sprintf, if_pos h.length_lt, ok_bind]
  exact if_pos h

theorem debug_of_not_fits (h : ¬ Fits filename fileline t msg) :
    debug filename fileline t msg = .error .overrun := by
  rw [debug, sprintf]
  split
  · exact if_neg h
  · rfl

end Log

/-! ### The loop -/

/-- The result of one `::read` that the loop acts on. -/
inductive FileRead where
  /-- The bytes it stored, at least one. -/
  | data (bytes : Bytes)
  | eof
  | error
deriving DecidableEq, Repr

/-- The value that `::read` returns. -/
def FileRead.n : FileRead → Int
  | .data bytes => bytes.length
  | .eof => 0
  | .error => -1

/-- How the file ends. -/
inductive FileEnd where
  | eof
  | error
deriving DecidableEq, Repr

/-- The result of the last call. -/
def FileEnd.result : FileEnd → FileRead
  | .eof => .eof
  | .error => .error

/-- The results of the successive calls of `::read` with room for 1024 bytes. -/
structure FileReads where
  chunks : List Bytes
  last : FileEnd
  counts : ∀ chunk ∈ chunks, 0 < chunk.length ∧ chunk.length ≤ 1024

/-- The results in order. -/
def FileReads.results (r : FileReads) : List FileRead :=
  r.chunks.map .data ++ [r.last.result]

/-- The bytes of the file, as far as it could be read. -/
def FileReads.file (r : FileReads) : Bytes := r.chunks.flatten

/-- The locals of `handle_modify`. `buf` is the memory from the array on, whatever lies
behind it; `pbuf` is an offset into it, and `calls` are the offsets at which `::read` was
told to store. -/
structure ModifyLocals where
  buf : Nat → UInt8
  pbuf : Nat := 0
  size : Nat := 0
  calls : List Nat := []

namespace ModifyLocals

/-- `::read(_fd,pbuf,1024)`. -/
def read (m : ModifyLocals) (ret : FileRead) : ModifyLocals :=
  { m with
    calls := m.calls ++ [m.pbuf]
    buf := match ret with
      | .data bytes => fun i => if m.pbuf ≤ i then (bytes[i - m.pbuf]?).getD (m.buf i) else m.buf i
      | _ => m.buf }

/-- `std::string s(buf,size)`. -/
def str (m : ModifyLocals) : Bytes := (List.range m.size).map m.buf

/-- The loop of `handle_modify`. -/
def loop (m : ModifyLocals) : List FileRead → ModifyLocals
  | [] => m
  | ret :: rets =>
      let m := m.read ret
      if ret.n ≤ 0 ∨ 4096 ≤ m.size then
        m
      else
        loop { m with pbuf := m.pbuf + ret.n.toNat, size := m.size + ret.n.toNat } rets

end ModifyLocals

namespace ModifyLocals

variable {m : ModifyLocals}

/-- Each call of `::read` so far had its 1024 bytes inside `char buf[4096]`. -/
def Inside (m : ModifyLocals) : Prop := ∀ p ∈ m.calls, p + 1024 ≤ 4096

theorem inside_read (ret : FileRead) : (m.read ret).Inside ↔ m.Inside ∧ m.pbuf + 1024 ≤ 4096 := by
  simp [Inside, read, or_imp, forall_and]

/-- What the loop continues with after a block. -/
def advance (m : ModifyLocals) (bytes : Bytes) : ModifyLocals :=
  { m.read (.data bytes) with pbuf := m.pbuf + bytes.length, size := m.size + bytes.length }

theorem loop_data {bytes : Bytes} (hpos : 0 < bytes.length) (rets : List FileRead) :
    m.loop (.data bytes :: rets) =
      if 4096 ≤ m.size then m.read (.data bytes) else (m.advance bytes).loop rets := by
  have hn : ¬ (bytes.length : Int) ≤ 0 := by omega
  have hsize : (m.read (.data bytes)).size = m.size := rfl
  simp only [loop, FileRead.n, hn, false_or, hsize, Int.toNat_natCast]
  rfl

theorem loop_last (last : FileEnd) :
    m.loop [last.result] = m.read last.result := by
  cases last with
  | eof => simp [loop, FileEnd.result, FileRead.n]
  | error => simp [loop, FileEnd.result, FileRead.n]

/-- A block that is read at the end of what is there is appended to it. -/
theorem str_advance (heq : m.pbuf = m.size) (bytes : Bytes) :
    (m.advance bytes).str = m.str ++ bytes := by
  rw [str, show (m.advance bytes).size = m.size + bytes.length from rfl, List.range_add,
    List.map_append, List.map_map]
  congr 1
  · apply List.map_congr_left
    intro i hi
    have hlt : ¬ m.pbuf ≤ i := by
      rw [heq]
      exact not_le.mpr (List.mem_range.mp hi)
    simp [advance, read, hlt]
  · apply List.ext_getElem
    · simp
    · intro i hi hi'
      simp [advance, read, heq, hi']

/-- The calls of the loop stay inside the array iff the file is short enough. -/
theorem inside_loop {chunks : List Bytes}
    (hcounts : ∀ chunk ∈ chunks, 0 < chunk.length ∧ chunk.length ≤ 1024) (last : FileEnd)
    (heq : m.pbuf = m.size) :
    (m.loop (chunks.map .data ++ [last.result])).Inside ↔
      m.Inside ∧ m.size + chunks.flatten.length ≤ 3072 := by
  induction chunks generalizing m with
  | nil =>
    rw [List.map_nil, List.nil_append, loop_last, inside_read, heq]
    simp
  | cons chunk chunks ih =>
    obtain ⟨hchunk, hrest⟩ := List.forall_mem_cons.mp hcounts
    rw [List.map_cons, List.cons_append, loop_data hchunk.1, List.flatten_cons, List.length_append]
    split
    · rename_i hfull
      rw [inside_read, heq]
      exact and_congr_right fun _ => by omega
    · have hinside : (m.advance chunk).Inside ↔ m.Inside ∧ m.size + 1024 ≤ 4096 := by
        rw [← heq]
        exact inside_read (.data chunk)
      have hsize : (m.advance chunk).size = m.size + chunk.length := rfl
      rw [ih hrest (by simp [advance, heq]), hinside, hsize, and_assoc]
      exact and_congr_right fun _ => by omega

/-- A short file is read as a whole. -/
theorem str_loop {chunks : List Bytes}
    (hcounts : ∀ chunk ∈ chunks, 0 < chunk.length ∧ chunk.length ≤ 1024) (last : FileEnd)
    (heq : m.pbuf = m.size) (hshort : m.size + chunks.flatten.length ≤ 3072) :
    (m.loop (chunks.map .data ++ [last.result])).str =
      m.str ++ chunks.flatten := by
  induction chunks generalizing m with
  | nil =>
    rw [List.map_nil, List.nil_append, loop_last, List.flatten_nil, List.append_nil]
    cases last with
    | eof => rfl
    | error => rfl
  | cons chunk chunks ih =>
    obtain ⟨hchunk, hrest⟩ := List.forall_mem_cons.mp hcounts
    rw [List.flatten_cons, List.length_append] at hshort
    have hsize : (m.advance chunk).size = m.size + chunk.length := rfl
    rw [List.map_cons, List.cons_append, loop_data hchunk.1, if_neg (by omega),
      ih hrest (by simp [advance, heq]) (by omega), str_advance heq, List.flatten_cons,
      List.append_assoc]

end ModifyLocals

namespace FileHandle

/-- What `handle_modify` has done when it returns: its locals, what it has logged of the file,
and the lines that were printed. -/
structure Modified where
  locals : ModifyLocals
  logged : Bytes
  lines : List Bytes

/-- `FileHandle::handle_modify`, compiled with `DEBUG` as `SConstruct` says. `stack` is what the
memory held before, `file` is `__FILE__`, and `now i` the time of the line `i`. -/
def handleModify (file : Bytes) (now : Nat → Log.Tm) (filePath : Bytes) (stack : Nat → UInt8)
    (r : FileReads) : Except Log.Fault Modified := do
  let modify ← Log.debug file 202 (now 0)
    (text "file handle file modify!" ++ cString filePath)
  let m := ModifyLocals.loop { buf := stack } r.results
  let s := m.str
  let read ← Log.debug file 218 (now 1) (text "read str:" ++ cString s)
  let clear ← Log.debug file 219 (now 2) (text "clear file!")
  return ⟨m, cString s, [modify, read, clear]⟩

variable {file filePath : Bytes} {now : Nat → Log.Tm} {stack : Nat → UInt8} {r : FileReads}

/-- The file is text, and each line that is logged fits into its array. -/
structure Loggable (file : Bytes) (now : Nat → Log.Tm) (filePath : Bytes) (r : FileReads) :
    Prop where
  modify : Log.Fits file 202 (now 0) (text "file handle file modify!" ++ cString filePath)
  nonzero : 0 ∉ r.file
  read : Log.Fits file 218 (now 1) (text "read str:" ++ r.file)
  clear : Log.Fits file 219 (now 2) (text "clear file!")

theorem inside_iff (stack : Nat → UInt8) (r : FileReads) :
    (ModifyLocals.loop { buf := stack } r.results).Inside ↔ r.file.length ≤ 3072 := by
  have hnone : ModifyLocals.Inside { buf := stack } := by simp [ModifyLocals.Inside]
  have hloop := ModifyLocals.inside_loop (m := { buf := stack }) r.counts r.last rfl
  rw [Nat.zero_add] at hloop
  rw [FileReads.results, hloop]
  exact and_iff_right hnone

/-- A short file is what `s` holds. -/
theorem str_eq (stack : Nat → UInt8) (hshort : r.file.length ≤ 3072) :
    (ModifyLocals.loop { buf := stack } r.results).str = r.file :=
  ModifyLocals.str_loop (m := { buf := stack }) r.counts r.last rfl
    ((Nat.zero_add _).trans_le hshort)

theorem Loggable.length_le (h : Loggable file now filePath r) : r.file.length ≤ 3072 := by
  have hlt := h.read.length_lt
  rw [List.length_append, Log.bufSize] at hlt
  omega

/-- A call that returns has put each of its lines into an array. -/
theorem handleModify_eq_ok {d : Modified}
    (h : handleModify file now filePath stack r = .ok d) :
    Log.Fits file 202 (now 0) (text "file handle file modify!" ++ cString filePath) ∧
      d.locals = ModifyLocals.loop { buf := stack } r.results ∧
      d.logged = cString d.locals.str ∧
      Log.Fits file 218 (now 1) (text "read str:" ++ d.logged) ∧
      Log.Fits file 219 (now 2) (text "clear file!") := by
  have hfits : ∀ {fileline t msg line}, Log.debug file fileline t msg = .ok line →
      Log.Fits file fileline t msg := by
    intro fileline t msg line hline
    by_contra hnot
    rw [Log.debug_of_not_fits hnot] at hline
    cases hline
  obtain ⟨modify, hmodify, h⟩ := bind_eq_ok.mp h
  obtain ⟨read, hread, h⟩ := bind_eq_ok.mp h
  obtain ⟨clear, hclear, h⟩ := bind_eq_ok.mp h
  cases h
  exact ⟨hfits hmodify, rfl, rfl, hfits hread, hfits hclear⟩

/-- **The reads stay inside the local buffer**, the lines inside the arrays of `Log::debug`,
and what is logged is the file up to the size of the buffer, if and only if the file has no
zero byte and the lines are short enough. -/
theorem handleModify_iff (file : Bytes) (now : Nat → Log.Tm) (filePath : Bytes)
    (stack : Nat → UInt8) (r : FileReads) :
    Ensures (handleModify file now filePath stack r)
        (fun d => d.locals.Inside ∧ d.logged = r.file.take 4096) (fun _ => False) ↔
      Loggable file now filePath r := by
  constructor
  · intro h
    cases hret : handleModify file now filePath stack r with
    | error fault =>
      rw [hret] at h
      exact h.elim
    | ok d =>
      rw [hret] at h
      obtain ⟨hinside, hlogged⟩ := h
      obtain ⟨hmodify, hlocals, hstr, hread, hclear⟩ := handleModify_eq_ok hret
      rw [hlocals, inside_iff] at hinside
      have hfile : r.file.take 4096 = r.file := List.take_of_length_le (by omega)
      rw [hfile] at hlogged
      refine ⟨hmodify, ?_, hlogged ▸ hread, hclear⟩
      rw [← hlogged, hstr]
      exact zero_notMem_cString _
  · intro h
    have hshort := h.length_le
    have hstr := str_eq stack hshort
    have hread : Log.Fits file 218 (now 1)
        (text "read str:" ++ cString (ModifyLocals.loop { buf := stack } r.results).str) := by
      rw [hstr, cString_eq_self h.nonzero]
      exact h.read
    rw [handleModify, Log.debug_of_fits h.modify, ok_bind]
    dsimp only
    rw [Log.debug_of_fits hread, ok_bind, Log.debug_of_fits h.clear, ok_bind]
    refine ⟨(inside_iff stack r).mpr hshort, ?_⟩
    rw [List.take_of_length_le (by omega)]
    exact (congrArg cString hstr).trans (cString_eq_self h.nonzero)

/-- A file of four blocks: when all of it has been read, `::read` is called once more, with the
end of the array as its target. -/
theorem handleModify_full :
    ¬ ∀ (file : Bytes) (now : Nat → Log.Tm) (filePath : Bytes) (stack : Nat → UInt8)
      (r : FileReads), Ensures (handleModify file now filePath stack r)
        (fun d => d.locals.Inside ∧ d.logged = r.file.take 4096) (fun _ => False) := by
  intro h
  have hshort := ((handleModify_iff _ _ _ _ _).mp (h [] (fun _ => ⟨0, 0, 0, 0, 0, 0⟩) []
    (fun _ => 0)
    { chunks := List.replicate 4 (List.replicate 1024 10)
      last := .eof
      counts := by
        intro chunk hchunk
        rw [List.eq_of_mem_replicate hchunk, List.length_replicate]
        decide })).length_le
  rw [FileReads.file, List.length_flatten, List.map_replicate, List.length_replicate] at hshort
  revert hshort
  decide

end FileHandle

end MixServer
