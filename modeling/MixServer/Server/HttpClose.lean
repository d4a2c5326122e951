import MixServer.Server.HttpServer

/-!
Closing HTTP connections.

`streams` is filled when a connection is accepted and `handles` at its first
`handle_read`, but `HttpServer::close_connect` asserts both.
`close_finds_handle_iff` says which runs that costs: those in which the stream
of a connection ends, or its `recv` fails, before any data of it was read.
-/

namespace MixServer.Server

open Lib Net
open Function (update)

namespace HttpServer

variable {script : Script} {E : Crash → Prop} {busy : Option Nat}
variable {w w' : TcpServer HttpHandles} {a : Nat}

/-- The connection has an `httpHandle`. -/
def Handled (x : HttpHandles) (a : Nat) : Prop := a ∈ x.handles

/-- Neither assertion of `close_connect` is the one that failed. -/
def CloseHolds (x : Crash) : Prop :=
  x.cause ≠ .closeConnectStreams ∧ x.cause ≠ .closeConnectHandles

/-! ### One close -/

/-- What `HttpServer::close_connect` does to a connection that has a handle. -/
def tearDown (w : TcpServer HttpHandles) (a : Nat) : TcpServer HttpHandles :=
  { w.tearDown a with
    trace := w.trace ++ .closeConnect a ::
      (if a ∈ w.ext.pyHandles then [.pyHandleClose a] else [])
    ext := ⟨w.ext.handles.erase a, w.ext.pyHandles.erase a⟩ }

/-- The script does not close the connection again from `py_handle_close`, since
`closed` reads True by then. -/
theorem pyHandleClose_eq (hc : (w.heap a).closing = true) :
    pyHandleClose a w =
      .ok { w with
        trace := w.trace ++ (if a ∈ w.ext.pyHandles then [.pyHandleClose a] else [])
        ext := ⟨w.ext.handles, w.ext.pyHandles.erase a⟩ } := by
  unfold pyHandleClose
  split
  · rename_i hpy
    have hclosed : ((w.log (.pyHandleClose a)).senders a).all
        (·.getClosed a (w.log (.pyHandleClose a))) = true := by
      cases hs : w.senders a <;> simp [hs, PySender.getClosed, hc]
    rw [if_pos hclosed]
    rfl
  · rename_i hpy
    rw [Finset.erase_eq_of_notMem hpy, List.append_nil]

theorem closeConnect_eq {A : HttpHandles → Nat → Prop} (h : Inv A busy w) (ha : a ∈ w.streams)
    (hc : (w.heap a).closing = true) (hA : Handled w.ext a) :
    closeConnect a w = .ok (tearDown w a) := by
  have hA' : a ∈ (w.tearDown a).ext.handles := hA
  have hc' : ((w.tearDown a).heap a).closing = true := by simpa [TcpServer.tearDown_heap] using hc
  unfold closeConnect
  rw [h.closeConnect_eq ha, ok_bind, if_pos hA', pyHandleClose_eq hc', ok_bind]
  simp only [tearDown, TcpServer.tearDown_trace, TcpServer.tearDown_ext, List.append_assoc,
    List.singleton_append]
  rfl

theorem closes_http : Closes Handled E closeConnect := by
  intro w a h ha hc hA
  rw [closeConnect_eq h ha hc hA, ensures_ok]
  have hdown := h.tearDown ha hc
  have htrace : Tidy (tearDown w a).trace ∧ ∀ b, .closeConnect b ∈ (tearDown w a).trace →
      b ∉ (w.tearDown a).streams ∧ b ≤ (w.tearDown a).maxConnectId := by
    by_cases hpy : a ∈ w.ext.pyHandles
    · have hlog := hdown.log (o := .pyHandleClose a) (by simp)
      exact ⟨by simpa [tearDown, hpy] using hlog.tidy, by simpa [tearDown, hpy] using hlog.torn⟩
    · exact ⟨by simpa [tearDown, hpy] using hdown.tidy, by simpa [tearDown, hpy] using hdown.torn⟩
  refine ⟨{ hdown with owned := ?_, tidy := htrace.1, torn := htrace.2 },
    Finset.notMem_erase a _⟩
  intro b hb hx
  exact Finset.mem_erase.mpr ⟨(Finset.mem_erase.mp hb).1, hdown.owned b hb hx⟩

/-! ### Reading -/

theorem inv_makeHandle (h : Inv Handled none w) (ha : a ∈ w.streams) :
    Inv Handled none (makeHandle a w) := by
  have hlog := h.log (o := .pyNewConnect a) (by simp)
  have hsender : ∀ b, ((makeHandle a w).senders b).isSome = true → b = a ∨
      (w.senders b).isSome = true := by
    intro b hb
    by_cases hba : b = a
    · exact .inl hba
    · exact .inr (by simpa [makeHandle, hba] using hb)
  refine { hlog with owned := fun b hb hx => ?_, known := fun b hb => ?_ }
  · by_cases hba : b = a
    · subst hba
      exact Finset.mem_insert_self b _
    · refine Finset.mem_insert_of_mem (h.owned b hb (hx.imp id (Or.imp id fun hs => ?_)))
      exact (hsender b hs).resolve_left hba
  · rcases hsender b hb with rfl | hs
    · exact h.numbered b ha
    · exact h.known b hs

theorem inv_callHandler (h : Inv Handled none w) (o : Obs) (ho : ∀ b, o ≠ .closeConnect b ∧
      (o = .handleRead b ∨ o = .handleWrite b → b ∈ w.streams)) :
    Ensures (callHandler script a o w) (Inv Handled none) E := by
  unfold callHandler
  split
  · exact (h.log ho).performAll closes_http _
  · exact h

theorem inv_lineLoop (h : Inv Handled none w) (turns : Nat) :
    Ensures (lineLoop script a turns w) (Inv Handled none) E := by
  induction turns generalizing w with
  | zero => exact h
  | succ turns ih =>
    simp only [lineLoop]
    split
    · exact h
    · rename_i idx _
      have hread := h.modifyRead (a := a) (·.preadBuf.drop (idx + 2))
      refine Ensures.bind (inv_callHandler hread _ (by simp)) ?_
      exact fun w' h' => ih h'

theorem respects_http (hE : ∀ t, E ⟨.emptyMessage, t⟩) :
    Respects Handled E (httpServer script) where
  closes := closes_http
  reads {w a} h ha := by
    have hhandle : Inv Handled none (if a ∈ w.ext.handles then w else makeHandle a w) := by
      split
      · exact h
      · exact inv_makeHandle h ha
    change Ensures (handleRead script a w) _ _
    rw [handleRead, if_pos ha]
    generalize (if a ∈ w.ext.handles then w else makeHandle a w) = w' at hhandle
    unfold httpHandleRead
    split
    · exact inv_lineLoop hhandle _
    · split
      · exact hE _
      · exact inv_callHandler (hhandle.modifyRead fun _ => []) _ (by simp)

/-! ### Runs -/

theorem step_attended (h : Inv Handled none w) {e : Event} (hA : e.Attended Handled w) :
    Ensures (step (httpServer script) w e) (Inv Handled none) CloseHolds := by
  have hE : ∀ c t, Abort.ofKernel c = true → CloseHolds ⟨c, t⟩ := by
    intro c t hc
    cases c <;> simp_all [CloseHolds, Abort.ofKernel]
  refine h.step (respects_http fun t => by simp [CloseHolds]) (fun w _ c hc => hE c _ hc) ?_ hA
  intro w fd peer h
  refine (h.newConnect (fun c hc => hE c _ ?_) fd peer).mono (fun _ h' => h'.1) (fun _ => id)
  rcases List.mem_pair.mp hc with rfl | rfl <;> rfl

/-- Closing a connection that has no handle fails the second assertion. -/
theorem close_unhandled (h : Inv always none w) (ha : a ∈ w.streams)
    (hnil : (w.heap a).pwriteBuf = []) (hn : a ∉ w.ext.handles) :
    TcpStream.close closeConnect a w =
      .error ⟨.closeConnectHandles, w.trace ++ [.closeConnect a]⟩ := by
  have hclosing := (h.idle (some a)).setClosing (a := a) trivial
  simp only [TcpStream.close, TcpServer.modify_heap_self, hnil, if_true, closeConnect]
  rw [hclosing.closeConnect_eq ha, ok_bind, if_neg (by simpa using hn)]
  rfl

/-- Without a handle, the end of the stream is the end of the process. -/
theorem step_unattended (h : Inv Handled none w) {e : Event} (hA : ¬ e.Attended Handled w) :
    Ensures (step (httpServer script) w e) (fun _ => False) (fun x => ¬ CloseHolds x) := by
  cases e with
  | timer actions => exact absurd trivial hA
  | select fd events io =>
      simp only [Event.Attended, not_forall] at hA
      obtain ⟨a, hfd, hread, hends, hn⟩ := hA
      have ha := (h.handled fd a hfd).1
      -- no sender was made for the connection, so nothing is unsent
      have hnil : (w.heap a).pwriteBuf = [] := by
        by_contra hne
        exact hn (h.owned a ha (.inr (.inl hne)))
      have hmask := (h.dispatched ha events).always
      have hrecv := hmask.received ha io.recv.chunks.flatten
      have hclose : ∀ w', Inv always none w' → w'.streams = w.streams → w'.ext = w.ext →
          (w'.heap a).pwriteBuf = [] → ∃ t, TcpStream.close closeConnect a w' =
            .error ⟨.closeConnectHandles, t⟩ := by
        intro w' h' hs he hb
        exact ⟨_, close_unhandled h' (hs ▸ ha) hb (he ▸ hn)⟩
      have hfail : ∃ t, TcpStream.handleRead (httpServer script) io.recv a
          (w.modify a fun s => { s with revents := events }) =
            .error ⟨.closeConnectHandles, t⟩ := by
        rw [TcpStream.handleRead_eq]
        split
        · exact hclose _ hrecv rfl rfl (by simpa using hnil)
        · rename_i e hlast
          rw [if_pos (by simpa [hlast, Socket.RecvEnd.ends] using hends)]
          exact hclose _ (hrecv.log (by simp)) rfl rfl (by simpa using hnil)
      obtain ⟨t, hfail⟩ := hfail
      simp only [step, doSelect, hfd, TcpStream.handleEvent, TcpServer.modify_heap_self, hread,
        if_true, hfail, error_bind]
      exact fun hx => hx.2 rfl

/-- What closing `a` must leave alone: everything of another connection `b`, and
the loop's tables but for the descriptor of `a`. -/
structure Untouched (a b : Nat) (w w' : TcpServer HttpHandles) : Prop where
  streams : b ∈ w'.streams ↔ b ∈ w.streams
  handles : b ∈ w'.ext.handles ↔ b ∈ w.ext.handles
  pyHandles : b ∈ w'.ext.pyHandles ↔ b ∈ w.ext.pyHandles
  heap : w'.heap b = w.heap b
  senders : w'.senders b = w.senders b
  ploop : ∀ fd ≠ (w.heap a).fd, w'.ploop.handles fd = w.ploop.handles fd ∧
    w'.ploop.select_ fd = w.ploop.select_ fd

theorem untouched_of_closeConnect (h : closeConnect a w = .ok w') {b : Nat} (hb : b ≠ a) :
    Untouched a b w w' := by
  unfold closeConnect at h
  obtain ⟨w1, hbase, h⟩ := bind_eq_ok.mp h
  obtain rfl := TcpServer.eq_tearDown hbase
  split at h
  · unfold pyHandleClose at h
    split at h
    · dsimp only at h
      split at h
      · cases h
        exact ⟨by simp [hb], by simp [hb], by simp [hb], by simp [TcpServer.tearDown_heap, hb],
          rfl, fun fd hfd => by simp [hfd]⟩
      · cases h
    · cases h
      exact ⟨by simp [hb], by simp [hb], Iff.rfl, by simp [TcpServer.tearDown_heap, hb],
        rfl, fun fd hfd => by simp [hfd]⟩
  · cases h

/-- **Closing an HTTP connection.** Over whole runs, whatever the kernel answers
and the script does, `close_connect` finds its connection in `streams` and
`handles` every time iff no stream ends before data of it was read; and a
`close_connect` that returns has touched no other connection. -/
theorem close_finds_handle_iff (script : Script) (lfd : Nat) (es : List Event) :
    (Ensures (exec (step (httpServer script)) (TcpServer.bind lfd {}) es) (fun _ => True)
        CloseHolds ↔
      Every (step (httpServer script)) (fun w e => e.Attended Handled w)
        (TcpServer.bind lfd {}) es) ∧
    ∀ w w' a, closeConnect a w = .ok w' → ∀ b ≠ a, Untouched a b w w' :=
  ⟨exec_ensures_iff_every (fun _ _ h hA => step_attended h hA)
    (fun _ _ h hA => step_unattended h hA) (Inv.bind lfd {}),
    fun _ _ _ h _ hb => untouched_of_closeConnect h hb⟩

/-- A peer that connects and closes without sending anything ends the process. -/
theorem silent_peer_aborts :
    ¬ Ensures (exec (step (httpServer fun _ => [])) (TcpServer.bind 3 {})
        [.select 3 { read := true } ⟨⟨[], .eof⟩, [], .conn 4 true⟩,
          .select 4 { read := true } ⟨⟨[], .eof⟩, [], .error⟩]) (fun _ => True) CloseHolds :=
  fun h => h.2 rfl

end HttpServer

end MixServer.Server
