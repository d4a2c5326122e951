import Mathlib.Data.List.Count
import MixServer.Server.HttpServer
import MixServer.Server.Trace

/-!
The tables of `HttpServer` on both sides: `handles` of the server, and the
dictionary `handles` of `script/httphandle.py`, with the handler objects in it.

The script may close a connection from inside a callback. Then the server, still
inside that callback, takes the connection out of its tables and calls
`handle_close` of the script, which closes it again unless `closed` reads True.
`closeConnectN` follows that recursion; `closeConnectN_eq` says that it never goes
round, and `handlers_agree` that the tables agree in every run.
-/

namespace MixServer.Server

open Lib Net
open Function (update)

/-- The handler objects of the script: `HttpHandle`, and `WSHandle` after an
upgrade. -/
inductive PyHandle where
  | http
  | ws
deriving DecidableEq, Repr

/-- The fields `HttpServer` adds: the keys of `handles`; and the dictionary
`handles` of the script. -/
structure HttpTables where
  handles : Finset Nat := ∅
  pyHandles : Nat → Option PyHandle := fun _ => none

/-- What an `HttpHandle` does with a line. `do_GET` of an upgrade request puts a
`WSHandle` in its place before it does anything else. -/
structure Reaction where
  upgrade : Bool := false
  actions : List Action := []
deriving DecidableEq, Repr

/-- What the handler objects do with lines and messages, decided from everything
that has happened. -/
structure HttpScript where
  handleLine : List Obs → Reaction
  handleMessage : List Obs → List Action

namespace HttpTables

/-! ### The methods -/

/-- `handles[conn_id] = handle` of the script, or `del handles[conn_id]`. -/
def setPyHandle (a : Nat) (h : Option PyHandle) (w : TcpServer HttpTables) :
    TcpServer HttpTables :=
  { w with ext := { w.ext with pyHandles := update w.ext.pyHandles a h } }

/-- `handle_close` of both handler classes: closes unless `closed` reads True. -/
def handleClose (closeConnect : Nat → Method HttpTables) (a : Nat) : Method HttpTables :=
  fun w => Action.perform closeConnect w (.close a)

/-- `py_handle_close`: the script's `handle_close`, which forgets the handler. An id
without one raises `KeyError`, which `call_py_obj` prints. -/
def pyHandleClose (closeConnect : Nat → Method HttpTables) (a : Nat) : Method HttpTables :=
  fun w => do
    let w := w.log (.pyHandleClose a)
    if (w.ext.pyHandles a).isSome then
      let w ← handleClose closeConnect a w
      return setPyHandle a none w
    else
      return w

/-- `HttpServer::close_connect`, with a bound on how often the script may close
again from `handle_close`. -/
def closeConnectN : Nat → Nat → Method HttpTables
  | 0, _ => fun w => w.abort .reentrantClose
  | depth + 1, a => fun w => do
      let w ← TcpServer.closeConnect a w
      if a ∈ w.ext.handles then
        let w ← pyHandleClose (closeConnectN depth) a w
        return { w with ext := { w.ext with handles := w.ext.handles.erase a } }
      else
        w.abort .closeConnectHandles

/-- The constructor of `httpHandle`: a sender for the connection is made, and
`py_new_connect` makes an `HttpHandle`. -/
def makeHandle (a : Nat) (w : TcpServer HttpTables) : TcpServer HttpTables :=
  { w.log (.pyNewConnect a) with
    senders := update w.senders a (some {})
    ext :=
      { handles := insert a w.ext.handles
        pyHandles := update w.ext.pyHandles a (some .http) } }

/-- What `do_GET` does to the tables on an upgrade. -/
def upgrade (a : Nat) (w : TcpServer HttpTables) : TcpServer HttpTables :=
  setPyHandle a (some .ws) (PySender.modify a (fun s => { s with readingLine := false }) w)

variable (depth : Nat) (script : HttpScript)

/-- `py_handle_line`. Only an `HttpHandle` has a `handle_line`; otherwise the call
raises. -/
def pyHandleLine (a : Nat) (line : Bytes) : Method HttpTables := fun w =>
  let w := w.log (.handleLine a line)
  match w.ext.pyHandles a with
  | some .http =>
      let reaction := script.handleLine w.trace
      exec (Action.perform (closeConnectN depth)) (if reaction.upgrade then upgrade a w else w)
        reaction.actions
  | _ => .ok w

/-- `py_handle_message`; that of an `HttpHandle` only prints. -/
def pyHandleMessage (a : Nat) (message : Bytes) : Method HttpTables := fun w =>
  let w := w.log (.handleMessage a message)
  match w.ext.pyHandles a with
  | some .ws => exec (Action.perform (closeConnectN depth)) w (script.handleMessage w.trace)
  | _ => .ok w

/-- The loop of `httpHandle::handle_read` in line mode, with a bound on its
turns. -/
def lineLoop (a : Nat) : Nat → Method HttpTables
  | 0 => .ok
  | turns + 1 => fun w =>
      match findCRLF (w.heap a).preadBuf with
      | none => .ok w
      | some idx => do
          let line := (w.heap a).preadBuf.take idx
          let w := w.modify a fun s => { s with preadBuf := s.preadBuf.drop (idx + 2) }
          let w ← pyHandleLine depth script a line w
          lineLoop a turns w

/-- `httpHandle::handle_read`. -/
def httpHandleRead (a : Nat) : Method HttpTables := fun w =>
  if (w.senders a).any (·.readingLine) then
    lineLoop depth script a (w.heap a).preadBuf.length w
  else if (w.heap a).preadBuf = [] then
    w.abort .emptyMessage
  else
    pyHandleMessage depth script a (w.heap a).preadBuf
      (w.modify a fun s => { s with preadBuf := [] })

/-- `HttpServer::handle_read`. -/
def handleRead (a : Nat) : Method HttpTables := fun w =>
  if a ∈ w.streams then
    httpHandleRead depth script a (if a ∈ w.ext.handles then w else makeHandle a w)
  else
    w.abort .handleReadStreams

/-- The virtual methods of `HttpServer`. -/
def server : ServerClass HttpTables where
  newConnect := TcpServer.newConnect
  handleRead := handleRead depth script
  closeConnect := closeConnectN depth

/-! ### One close -/

section Close

variable {E : Crash → Prop} {busy : Option Nat} {w w' : TcpServer HttpTables} {a : Nat}

/-- The connection has an `httpHandle`. -/
def Handled (x : HttpTables) (a : Nat) : Prop := a ∈ x.handles

/-- What `HttpServer::close_connect` does to a connection that has a handle. -/
def tearDown (w : TcpServer HttpTables) (a : Nat) : TcpServer HttpTables :=
  { (w.tearDown a).log (.pyHandleClose a) with
    ext := ⟨w.ext.handles.erase a, update w.ext.pyHandles a none⟩ }

/-- By the time the script is told, `closed` reads True: it does not close again. -/
theorem pyHandleClose_eq (closeConnect : Nat → Method HttpTables)
    (hc : (w.heap a).closing = true) :
    pyHandleClose closeConnect a w = .ok (setPyHandle a none (w.log (.pyHandleClose a))) := by
  have hquiet : handleClose closeConnect a (w.log (.pyHandleClose a)) =
      .ok (w.log (.pyHandleClose a)) := by
    unfold handleClose Action.perform
    cases hs : w.senders a with
    | none => simp [hs]
    | some s => simp [hs, PySender.getClosed, hc]
  unfold pyHandleClose
  dsimp only
  rw [hquiet, ok_bind]
  split
  · rfl
  · rename_i hnone
    rw [Option.not_isSome_iff_eq_none, TcpServer.log_ext] at hnone
    have hsame : update w.ext.pyHandles a none = w.ext.pyHandles := by
      rw [← hnone, Function.update_eq_self]
    simp only [setPyHandle, TcpServer.log_ext, hsame]
    rfl

/-- However deep the recursion may go, `close_connect` enters the script once. -/
theorem closeConnectN_eq {A : HttpTables → Nat → Prop} (h : Inv A busy w) (ha : a ∈ w.streams)
    (hc : (w.heap a).closing = true) (hA : Handled w.ext a) (depth : Nat) :
    closeConnectN (depth + 1) a w = .ok (tearDown w a) := by
  have hA' : a ∈ (w.tearDown a).ext.handles := hA
  have hc' : ((w.tearDown a).heap a).closing = true := by simpa [TcpServer.tearDown_heap] using hc
  unfold closeConnectN
  rw [h.closeConnect_eq ha, ok_bind, if_pos hA', pyHandleClose_eq _ hc']
  rfl

theorem closeConnectN_unhandled {A : HttpTables → Nat → Prop} (h : Inv A busy w)
    (ha : a ∈ w.streams) (hA : ¬ Handled w.ext a) (depth : Nat) :
    closeConnectN (depth + 1) a w =
      .error ⟨.closeConnectHandles, w.trace ++ [.closeConnect a]⟩ := by
  have hA' : a ∉ (w.tearDown a).ext.handles := hA
  unfold closeConnectN
  rw [h.closeConnect_eq ha, ok_bind, if_neg hA']
  rfl

theorem closes_tables (depth : Nat) : Closes Handled E (closeConnectN (depth + 1)) := by
  intro w a h ha hc hA
  rw [closeConnectN_eq h ha hc hA, ensures_ok]
  have hdown := (h.tearDown ha hc).log (o := .pyHandleClose a) (by simp)
  refine ⟨{ hdown with owned := ?_ }, Finset.notMem_erase a _⟩
  intro b hb hx
  exact Finset.mem_erase.mpr ⟨(Finset.mem_erase.mp hb).1, hdown.owned b hb hx⟩

end Close

/-! ### Agreement -/

/-- Both sides have the same connections, which are in `streams`; and the script
has been told once of each that it made a handler for and that is closed. -/
structure Agree (w : TcpServer HttpTables) : Prop where
  keys : ∀ a, a ∈ w.ext.handles ↔ (w.ext.pyHandles a).isSome = true
  streams : w.ext.handles ⊆ w.streams
  closes : ∀ a, w.trace.count (.pyHandleClose a) =
    if .pyNewConnect a ∈ w.trace ∧ a ∉ w.streams then 1 else 0

/-- The invariant behind `Agree`: `handles` are the connections in `streams` that
the script has seen. -/
structure Matched (w : TcpServer HttpTables) : Prop where
  keys : ∀ a, a ∈ w.ext.handles ↔ (w.ext.pyHandles a).isSome = true
  live : ∀ a, a ∈ w.ext.handles ↔ .pyNewConnect a ∈ w.trace ∧ a ∈ w.streams
  closes : ∀ a, w.trace.count (.pyHandleClose a) =
    if .pyNewConnect a ∈ w.trace ∧ a ∉ w.streams then 1 else 0
  known : ∀ a, .pyNewConnect a ∈ w.trace → a ≤ w.maxConnectId

theorem Matched.agree {w : TcpServer HttpTables} (h : Matched w) : Agree w where
  keys := h.keys
  streams a ha := ((h.live a).mp ha).2
  closes := h.closes

theorem matched_bind (lfd : Nat) : Matched (TcpServer.bind lfd {}) where
  keys a := by simp [TcpServer.bind]
  live a := by simp [TcpServer.bind]
  closes a := by simp [TcpServer.bind]
  known a ha := by simp [TcpServer.bind] at ha

/-- The entry is not one of `py_new_connect` or `py_handle_close`. -/
def Unscripted : Obs → Prop
  | .pyNewConnect _ | .pyHandleClose _ => False
  | _ => True

/-- What the tables say has not changed. -/
structure Quiet (w w' : TcpServer HttpTables) : Prop where
  streams : w'.streams = w.streams
  maxConnectId : w'.maxConnectId = w.maxConnectId
  handles : w'.ext.handles = w.ext.handles
  keys : ∀ a, (w'.ext.pyHandles a).isSome = (w.ext.pyHandles a).isSome
  trace : Extends Unscripted w.trace w'.trace

section Quiet

variable {w w' : TcpServer HttpTables}

theorem Quiet.mem_iff (h : Quiet w w') (a : Nat) :
    .pyNewConnect a ∈ w'.trace ↔ .pyNewConnect a ∈ w.trace := by
  obtain ⟨new, htrace, hnew⟩ := h.trace
  rw [htrace, List.mem_append, or_iff_left]
  exact fun hmem => hnew _ hmem

theorem Quiet.count_eq (h : Quiet w w') (a : Nat) :
    w'.trace.count (.pyHandleClose a) = w.trace.count (.pyHandleClose a) := by
  obtain ⟨new, htrace, hnew⟩ := h.trace
  have hnone : new.count (.pyHandleClose a) = 0 :=
    List.count_eq_zero.mpr fun hmem => hnew _ hmem
  rw [htrace, List.count_append, hnone, Nat.add_zero]

theorem Matched.quiet (h : Matched w) (hq : Quiet w w') : Matched w' where
  keys a := by
    rw [hq.handles, hq.keys]
    exact h.keys a
  live a := by
    rw [hq.handles, hq.mem_iff, hq.streams]
    exact h.live a
  closes a := by
    simp only [hq.count_eq, hq.mem_iff, hq.streams]
    exact h.closes a
  known a ha := by
    rw [hq.maxConnectId]
    exact h.known a ((hq.mem_iff a).mp ha)

/-- A change outside the tables. -/
theorem Matched.of_same (h : Matched w) (hstreams : w'.streams = w.streams)
    (hmax : w'.maxConnectId = w.maxConnectId) (hext : w'.ext = w.ext)
    (htrace : w'.trace = w.trace) : Matched w' :=
  h.quiet ⟨hstreams, hmax, by rw [hext], fun _ => by rw [hext], by rw [htrace]; exact .refl _ _⟩

theorem Matched.log (h : Matched w) {o : Obs} (ho : Unscripted o) : Matched (w.log o) :=
  h.quiet ⟨rfl, rfl, rfl, fun _ => rfl, .single ho _⟩

end Quiet

section Changes

variable {w : TcpServer HttpTables} {a : Nat}

theorem Matched.tearDown (h : Matched w) (hA : Handled w.ext a) : Matched (tearDown w a) := by
  obtain ⟨hnew, ha⟩ := (h.live a).mp hA
  have htrace : (HttpTables.tearDown w a).trace =
      w.trace ++ [.closeConnect a, .pyHandleClose a] := List.append_assoc _ _ _
  have hmem : ∀ b, .pyNewConnect b ∈ (HttpTables.tearDown w a).trace ↔
      .pyNewConnect b ∈ w.trace := by
    intro b
    simp [htrace]
  constructor
  · intro b
    by_cases hba : b = a
    · subst hba
      simp [HttpTables.tearDown]
    · simpa [HttpTables.tearDown, hba] using h.keys b
  · intro b
    rw [hmem]
    by_cases hba : b = a
    · subst hba
      simp [HttpTables.tearDown]
    · simpa [HttpTables.tearDown, hba] using h.live b
  · intro b
    simp only [hmem]
    by_cases hba : b = a
    · subst hba
      have hzero : w.trace.count (.pyHandleClose b) = 0 := by simp [h.closes b, ha]
      simp [HttpTables.tearDown, hzero, hnew]
    · have hne : ¬ a = b := fun heq => hba heq.symm
      simpa [htrace, HttpTables.tearDown, hba, hne] using h.closes b
  · intro b hb
    exact h.known b ((hmem b).mp hb)

theorem Matched.makeHandle (h : Matched w) (ha : a ∈ w.streams) (hle : a ≤ w.maxConnectId)
    (hA : ¬ Handled w.ext a) : Matched (makeHandle a w) := by
  have hnew : ¬ .pyNewConnect a ∈ w.trace := fun hnew => hA ((h.live a).mpr ⟨hnew, ha⟩)
  constructor
  · intro b
    by_cases hba : b = a
    · subst hba
      simp [HttpTables.makeHandle]
    · simpa [HttpTables.makeHandle, hba] using h.keys b
  · intro b
    by_cases hba : b = a
    · subst hba
      simp [HttpTables.makeHandle, ha]
    · simpa [HttpTables.makeHandle, hba] using h.live b
  · intro b
    by_cases hba : b = a
    · subst hba
      simpa [HttpTables.makeHandle, hnew, ha] using h.closes b
    · simpa [HttpTables.makeHandle, hba] using h.closes b
  · intro b hb
    by_cases hba : b = a
    · exact hba.trans_le hle
    · exact h.known b (by simpa [HttpTables.makeHandle, hba] using hb)

theorem Matched.connected (h : Matched w) (fd : Nat) : Matched (w.connected fd) := by
  have hfresh : .pyNewConnect (w.maxConnectId + 1) ∉ w.trace := by
    intro hnew
    have hle := h.known _ hnew
    omega
  constructor
  · exact h.keys
  · intro b
    by_cases hb : b = w.maxConnectId + 1
    · subst hb
      have hno : w.maxConnectId + 1 ∉ w.ext.handles := fun hmem =>
        hfresh ((h.live _).mp hmem).1
      simp [hfresh, hno]
    · simpa [hb] using h.live b
  · intro b
    by_cases hb : b = w.maxConnectId + 1
    · subst hb
      simpa [hfresh] using h.closes (w.maxConnectId + 1)
    · simpa [hb] using h.closes b
  · intro b hb
    exact (h.known b hb).trans (Nat.le_succ _)

end Changes

/-! ### Methods -/

section Methods

variable {depth : Nat} {script : HttpScript} {busy : Option Nat}
variable {w w' : TcpServer HttpTables} {a : Nat}

/-- The invariant of the server and that of its tables. -/
structure Good (busy : Option Nat) (w : TcpServer HttpTables) : Prop where
  inv : Inv Handled busy w
  matched : Matched w

/-- The recursion of `close_connect` has not gone too deep. -/
def Returned (x : Crash) : Prop := x.cause ≠ .reentrantClose

theorem Good.of_both {r : Except Crash (TcpServer HttpTables)} {E : Crash → Prop}
    (hinv : Ensures r (Inv Handled none) E) (hmatched : Ensures r Matched E) :
    Ensures r (Good none) E :=
  (hinv.and hmatched).mono (fun _ h => ⟨h.1, h.2⟩) fun _ => And.left

theorem Good.idle (h : Good none w) (busy : Option Nat) : Good busy w :=
  ⟨h.inv.idle busy, h.matched⟩

/-- Only a connection without a handler, and so without unsent bytes, makes
`close` fail. -/
theorem Good.close (h : Good (some a) w) (ha : a ∈ w.streams) :
    Ensures (TcpStream.close (closeConnectN (depth + 1)) a w) (Good none) Returned := by
  have hmodify : Matched (w.modify a fun s => { s with closing := true }) :=
    h.matched.of_same rfl rfl rfl rfl
  by_cases hA : Handled w.ext a
  · have hclosing := h.inv.setClosing hA
    have hinv := h.inv.close (E := Returned) (closes_tables depth) ha hA
    have hmatched : Ensures (TcpStream.close (closeConnectN (depth + 1)) a w) Matched
        Returned := by
      unfold TcpStream.close
      dsimp only
      split
      · rw [closeConnectN_eq hclosing ha (by simp) hA]
        exact (hmodify.tearDown hA).of_same rfl rfl rfl rfl
      · exact hmodify
    exact Good.of_both hinv hmatched
  · have hnil : (w.heap a).pwriteBuf = [] := by
      by_contra hne
      exact hA (h.inv.owned a ha (.inr (.inl hne)))
    have hclosing := h.inv.always.setClosing (a := a) trivial
    unfold TcpStream.close
    simp only [TcpServer.modify_heap_self, hnil, if_true]
    rw [closeConnectN_unhandled hclosing ha hA]
    intro hcause
    cases hcause

theorem Good.perform (h : Good none w) (act : Action) :
    Ensures (act.perform (closeConnectN (depth + 1)) w) (Good none) Returned := by
  have hinv := h.inv.perform (E := Returned) (closes_tables depth) act
  have hmatched : Ensures (act.perform (closeConnectN (depth + 1)) w) Matched Returned := by
    cases act with
    | send b p =>
      simp only [Action.perform]
      split
      · rename_i hb
        rw [h.inv.send_eq hb.2]
        exact h.matched.of_same rfl rfl rfl rfl
      · exact h.matched
    | close b =>
      simp only [Action.perform]
      cases hs : w.senders b with
      | none => exact h.matched
      | some s =>
        dsimp only
        split
        · exact h.matched
        · rename_i hclosed
          have hb := h.inv.mem_of_open hs hclosed
          refine Ensures.bind ((h.idle _).close hb) ?_
          intro w' h'
          exact h'.matched.of_same rfl rfl rfl rfl
    | setReadingLine b value => exact h.matched.of_same rfl rfl rfl rfl
  exact Good.of_both hinv hmatched

theorem Good.performAll (h : Good none w) (acts : List Action) :
    Ensures (exec (Action.perform (closeConnectN (depth + 1))) w acts) (Good none) Returned :=
  exec_ensures (fun _ act hw => hw.perform act) h acts

theorem Good.log (h : Good none w) {o : Obs} (hclose : ∀ b, o ≠ .closeConnect b ∧
    (o = .handleRead b ∨ o = .handleWrite b → b ∈ w.streams)) (ho : Unscripted o) :
    Good none (w.log o) :=
  ⟨h.inv.log hclose, h.matched.log ho⟩

/-- An upgrade replaces the handler of a connection that has one. -/
theorem Good.upgrade (h : Good none w) (ha : (w.ext.pyHandles a).isSome = true) :
    Good none (upgrade a w) where
  inv :=
    have hmodify := h.inv.modifySender (fun s => { s with readingLine := false }) a
    { hmodify with owned := fun b hb hx => hmodify.owned b hb hx }
  matched := by
    refine h.matched.quiet ⟨rfl, rfl, rfl, ?_, .refl _ _⟩
    intro b
    by_cases hba : b = a
    · subst hba
      simp [HttpTables.upgrade, setPyHandle, ha]
    · simp [HttpTables.upgrade, setPyHandle, PySender.modify, hba]

theorem Good.pyHandleLine (h : Good none w) (line : Bytes) :
    Ensures (pyHandleLine (depth + 1) script a line w) (Good none) Returned := by
  have hlog : Good none (w.log (.handleLine a line)) :=
    h.log (by simp) trivial
  unfold HttpTables.pyHandleLine
  dsimp only
  split
  · rename_i hhttp
    apply Good.performAll
    split
    · exact hlog.upgrade (by rw [hhttp]; rfl)
    · exact hlog
  · exact hlog

theorem Good.pyHandleMessage (h : Good none w) (message : Bytes) :
    Ensures (pyHandleMessage (depth + 1) script a message w) (Good none) Returned := by
  have hlog : Good none (w.log (.handleMessage a message)) :=
    h.log (by simp) trivial
  unfold HttpTables.pyHandleMessage
  dsimp only
  split
  · exact hlog.performAll _
  · exact hlog

theorem Good.modifyRead (h : Good none w) (f : TcpStream → Bytes) :
    Good none (w.modify a fun s => { s with preadBuf := f s }) :=
  ⟨h.inv.modifyRead f, h.matched.of_same rfl rfl rfl rfl⟩

theorem Good.lineLoop (h : Good none w) (turns : Nat) :
    Ensures (lineLoop (depth + 1) script a turns w) (Good none) Returned := by
  induction turns generalizing w with
  | zero => exact h
  | succ turns ih =>
    simp only [HttpTables.lineLoop]
    split
    · exact h
    · rename_i idx _
      refine Ensures.bind ((h.modifyRead (a := a) (·.preadBuf.drop (idx + 2))).pyHandleLine _) ?_
      exact fun w' h' => ih h'

/-- The first read of a connection makes its handlers. -/
theorem Good.makeHandle (h : Good none w) (ha : a ∈ w.streams) (hA : a ∉ w.ext.handles) :
    Good none (makeHandle a w) where
  inv := by
    have hlog := h.inv.log (o := .pyNewConnect a) (by simp)
    have hadd := hlog.always.addSender (a := a) (h.inv.numbered a ha).1 (h.inv.numbered a ha).2
      trivial {}
    refine { hadd with owned := ?_ }
    intro b hb hx
    by_cases hba : b = a
    · subst hba
      exact Finset.mem_insert_self b _
    · refine Finset.mem_insert_of_mem (h.inv.owned b hb (hx.imp id (Or.imp id fun hs => ?_)))
      simpa [HttpTables.makeHandle, hba] using hs
  matched := h.matched.makeHandle ha (h.inv.numbered a ha).2 hA

theorem Good.handleRead (h : Good none w) (ha : a ∈ w.streams) :
    Ensures (handleRead (depth + 1) script a w) (Good none) Returned := by
  have hhandle : Good none (if a ∈ w.ext.handles then w else HttpTables.makeHandle a w) := by
    split
    · exact h
    · rename_i hA
      exact h.makeHandle ha hA
  rw [HttpTables.handleRead, if_pos ha]
  generalize (if a ∈ w.ext.handles then w else HttpTables.makeHandle a w) = w' at hhandle
  unfold httpHandleRead
  split
  · exact hhandle.lineLoop _
  · split
    · intro hcause
      cases hcause
    · exact (hhandle.modifyRead fun _ => []).pyHandleMessage _

theorem Good.received (h : Good none w) (ha : a ∈ w.streams) (data : Bytes) :
    Good none (w.received a data) where
  inv := h.inv.received ha data
  matched := (h.matched.log (o := .handleRead a) trivial).of_same rfl rfl rfl rfl

theorem Good.streamRead (h : Good none w) (ha : a ∈ w.streams) (rets : Socket.RecvRets) :
    Ensures (TcpStream.handleRead (server (depth + 1) script) rets a w) (Good none) Returned := by
  have hrecv := h.received ha rets.chunks.flatten
  rw [TcpStream.handleRead_eq]
  split
  · exact (hrecv.idle _).close ha
  · split
    · exact ((hrecv.log (o := .recvError a _) (by simp) trivial).idle _).close ha
    · exact hrecv.handleRead ha

theorem Good.afterWrite (h : Good (some a) w) (ha : a ∈ w.streams) :
    Ensures (TcpStream.afterWrite (server (depth + 1) script) a w) (Good none) Returned := by
  unfold TcpStream.afterWrite
  split
  · rename_i hnil
    have hset := h.inv.setEvents ha (e := { (w.heap a).events with write := false })
      fun hne => absurd hnil hne
    have hmatched : Matched (w.setEvents a { (w.heap a).events with write := false }) :=
      h.matched.of_same rfl rfl rfl rfl
    rw [h.inv.disableWrite_eq ha, ok_bind]
    split
    · exact Good.close ⟨hset, hmatched⟩ ha
    · rename_i hclosing
      exact ⟨hset.settle fun _ hc => absurd hc hclosing, hmatched⟩
  · rename_i hne
    exact ⟨h.inv.settle fun _ _ => hne, h.matched⟩

theorem Good.streamWrite (h : Good none w) (ha : a ∈ w.streams) (rets : List Socket.SendRet) :
    Ensures (TcpStream.handleWrite (server (depth + 1) script) rets a w) (Good none)
      Returned := by
  have hsent : Good (some a) (w.sent a rets) :=
    ⟨h.inv.sent ha rets, (h.matched.log (o := .handleWrite a) trivial).of_same rfl rfl rfl rfl⟩
  rw [TcpStream.handleWrite_eq]
  split
  · exact hsent.afterWrite ha
  · rename_i e _
    split
    · have hlog : Good (some a) ((w.sent a rets).log (.sendError a e)) :=
        ⟨hsent.inv.log (by simp), hsent.matched.log trivial⟩
      exact hlog.close ha
    · exact hsent.afterWrite ha

theorem Good.handleEvent (h : Good none w) (io : Io) :
    Ensures (TcpStream.handleEvent (server (depth + 1) script) io a w) (Good none) Returned := by
  refine Ensures.bind (Q := Good none) ?_ ?_
  · split
    · rename_i hread
      exact h.streamRead (h.inv.mem_of_event (.inl hread)) io.recv
    · exact h
  · intro w' h'
    split
    · rename_i hwrite
      exact h'.streamWrite (h'.inv.mem_of_event (.inr hwrite)) io.send
    · exact h'

theorem Good.newConnect (h : Good none w) (fd : Nat) (peer : Bool) :
    Ensures (TcpServer.newConnect fd peer w) (Good none) Returned := by
  have hkernel : ∀ c, Abort.ofKernel c = true → Returned ⟨c, w.trace⟩ := by
    intro c hc hcause
    cases hcause
    cases hc
  rw [TcpServer.newConnect_eq]
  split
  · split
    · exact hkernel _ rfl
    · rename_i hfd
      exact ⟨h.inv.connected (by simpa using hfd), h.matched.connected fd⟩
  · exact hkernel _ rfl

theorem Good.step (h : Good none w) (e : Event) :
    Ensures (step (server (depth + 1) script) w e) (Good none) Returned := by
  cases e with
  | timer actions => exact h.performAll actions
  | select fd events io =>
    simp only [Server.step, doSelect]
    split
    · intro hcause
      cases hcause
    · split
      · unfold Acceptor.handleRead
        split
        · intro hcause
          cases hcause
        · exact h.newConnect _ _
      · exact h
    · rename_i a hfd
      have hinv := h.inv.dispatched (h.inv.handled fd a hfd).1 events
      exact Good.handleEvent ⟨hinv, h.matched.of_same rfl rfl rfl rfl⟩ io

end Methods

/-! ### Runs -/

/-- **The tables of the two sides agree.** In every run of the server, whatever the
kernel answers and the script does, upgrades and closes from inside its callbacks
included: unless an assertion fails, the server's `handles` and the script's have
the same keys, all of them in `streams`, and `handle_close` of the script was
called once for each connection it had a handler for that is closed, and for no
other. However deep `close_connect` and the script may call each other, they
return. -/
theorem handlers_agree (depth : Nat) (script : HttpScript) (lfd : Nat) (es : List Event) :
    Ensures (exec (step (server (depth + 1) script)) (TcpServer.bind lfd {}) es) Agree
      fun x => x.cause ≠ .reentrantClose := by
  have hbind : Good none (TcpServer.bind lfd {}) := ⟨Inv.bind lfd _, matched_bind lfd⟩
  have hstep : ∀ w e, Good none w →
      Ensures (step (server (depth + 1) script) w e) (Good none) Returned := fun _ e h => h.step e
  exact (exec_ensures hstep hbind es).mono (fun _ h => h.matched.agree) fun _ => id

/-- An upgraded connection that the script closes from inside `handle_message`. -/
example :
    (exec (step (server 1 ⟨fun _ => { upgrade := true }, fun _ => [.close 1]⟩))
        (TcpServer.bind 3 {})
        [.select 3 { read := true } ⟨⟨[], .eof⟩, [], .conn 4 true⟩,
          .select 4 { read := true } ⟨⟨[[13, 10]], .error .EAGAIN⟩, [], .error⟩,
          .select 4 { read := true } ⟨⟨[[136, 0]], .error .EAGAIN⟩, [], .error⟩]).toOption.map
      (fun w => (w.trace.count (.pyHandleClose 1), w.streams)) = some (1, ∅) := by
  decide +kernel

end HttpTables

end MixServer.Server
