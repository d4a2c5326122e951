import MixServer.Server.TcpServer

/-!
The invariant of a `TcpServer` and its subclasses.

`Inv` holds of every reachable state: `streams`, the loop's handles and the
selector agree; unsent bytes keep WRITE among the interests; a stream that is
closing waits for unsent bytes; a stream that has left `streams` takes no part
in any event. Here it is stated and shown to survive the changes the methods are
made of: a log entry, a change to one stream object, new interests
(`setEvents`) and leaving `streams` (`tearDown`). `MixServer.Server.LifeCycle`
puts the methods together.
-/

namespace MixServer.Server

open Lib Net
open Function (update)

variable {ε : Type} {A : ε → Nat → Prop} {E : Crash → Prop} {busy : Option Nat}
variable {w : TcpServer ε} {a : Nat}

/-! ### Field lemmas -/

namespace TcpServer

@[simp] theorem log_streams (o : Obs) : (w.log o).streams = w.streams := rfl
@[simp] theorem log_heap (o : Obs) : (w.log o).heap = w.heap := rfl
@[simp] theorem log_ploop (o : Obs) : (w.log o).ploop = w.ploop := rfl
@[simp] theorem log_senders (o : Obs) : (w.log o).senders = w.senders := rfl
@[simp] theorem log_maxConnectId (o : Obs) : (w.log o).maxConnectId = w.maxConnectId := rfl
@[simp] theorem log_ext (o : Obs) : (w.log o).ext = w.ext := rfl
@[simp] theorem log_trace (o : Obs) : (w.log o).trace = w.trace ++ [o] := rfl

variable (f : TcpStream → TcpStream)

@[simp] theorem modify_streams : (w.modify a f).streams = w.streams := rfl
@[simp] theorem modify_ploop : (w.modify a f).ploop = w.ploop := rfl
@[simp] theorem modify_senders : (w.modify a f).senders = w.senders := rfl
@[simp] theorem modify_maxConnectId : (w.modify a f).maxConnectId = w.maxConnectId := rfl
@[simp] theorem modify_ext : (w.modify a f).ext = w.ext := rfl
@[simp] theorem modify_trace : (w.modify a f).trace = w.trace := rfl

@[simp] theorem modify_heap_self : (w.modify a f).heap a = f (w.heap a) := by
  simp [modify]

theorem modify_heap_of_ne {b : Nat} (h : b ≠ a) : (w.modify a f).heap b = w.heap b := by
  simp [modify, h]

theorem modify_heap (b : Nat) :
    (w.modify a f).heap b = if b = a then f (w.heap a) else w.heap b := by
  simp only [modify, Function.update_apply]

end TcpServer

/-! ### Receiving and sending -/

/-- The state after `Socket::recv` in `TcpStream::handle_read`. -/
def TcpServer.received (w : TcpServer ε) (a : Nat) (data : Bytes) : TcpServer ε :=
  (w.log (.handleRead a)).modify a fun s => { s with preadBuf := s.preadBuf ++ data }

/-- The state after `Socket::send` in `TcpStream::handle_write`. -/
def TcpServer.sent (w : TcpServer ε) (a : Nat) (rets : List Socket.SendRet) : TcpServer ε :=
  (w.log (.handleWrite a)).modify a fun s =>
    { s with pwriteBuf := (Socket.send s.pwriteBuf rets).pbuf }

theorem TcpStream.handleRead_eq (C : ServerClass ε) (rets : Socket.RecvRets) (a : Nat)
    (w : TcpServer ε) :
    TcpStream.handleRead C rets a w =
      match rets.last with
      | .eof => TcpStream.close C.closeConnect a (w.received a rets.chunks.flatten)
      | .error e =>
          if e.fatal then
            TcpStream.close C.closeConnect a
              ((w.received a rets.chunks.flatten).log (.recvError a e))
          else C.handleRead a (w.received a rets.chunks.flatten) := by
  have hbuf : w.received a rets.chunks.flatten = (w.log (.handleRead a)).modify a
      fun s => { s with preadBuf := (Socket.recv (w.heap a).preadBuf rets).1 } := by
    simp only [TcpServer.received, TcpServer.modify, TcpServer.log_heap, Socket.recv_fst]
  rw [hbuf]
  rfl

/-- The `handle_read` of a connection whose `recv` loop gets one chunk and then
finds no more data. -/
def readable (C : ServerClass ε) (w : TcpServer ε) (e : Nat × Bytes) :
    Except Crash (TcpServer ε) :=
  TcpStream.handleRead C ⟨[e.2], .error .EAGAIN⟩ e.1 w

theorem readable_eq (C : ServerClass ε) (w : TcpServer ε) (e : Nat × Bytes) :
    readable C w e = C.handleRead e.1 (w.received e.1 e.2) := by
  rw [readable, TcpStream.handleRead_eq]
  simp [Errno.fatal]

theorem TcpStream.handleWrite_eq (C : ServerClass ε) (rets : List Socket.SendRet) (a : Nat)
    (w : TcpServer ε) :
    TcpStream.handleWrite C rets a w =
      match (Socket.send (w.heap a).pwriteBuf rets).error with
      | none => TcpStream.afterWrite C a (w.sent a rets)
      | some e =>
          if e.fatal then
            TcpStream.close C.closeConnect a ((w.sent a rets).log (.sendError a e))
          else TcpStream.afterWrite C a (w.sent a rets) := rfl

section ReceivedSent

variable (w) (a) (data : Bytes) (rets : List Socket.SendRet)

@[simp] theorem TcpServer.received_streams : (w.received a data).streams = w.streams := rfl
@[simp] theorem TcpServer.received_ext : (w.received a data).ext = w.ext := rfl
@[simp] theorem TcpServer.received_senders : (w.received a data).senders = w.senders := rfl
@[simp] theorem TcpServer.received_trace :
    (w.received a data).trace = w.trace ++ [.handleRead a] := rfl
@[simp] theorem TcpServer.received_heap_self : (w.received a data).heap a =
    { w.heap a with preadBuf := (w.heap a).preadBuf ++ data } := by
  simp [received]

@[simp] theorem TcpServer.sent_streams : (w.sent a rets).streams = w.streams := rfl
@[simp] theorem TcpServer.sent_ext : (w.sent a rets).ext = w.ext := rfl
@[simp] theorem TcpServer.sent_senders : (w.sent a rets).senders = w.senders := rfl
@[simp] theorem TcpServer.sent_trace :
    (w.sent a rets).trace = w.trace ++ [.handleWrite a] := rfl
@[simp] theorem TcpServer.sent_heap_self : (w.sent a rets).heap a =
    { w.heap a with pwriteBuf := (Socket.send (w.heap a).pwriteBuf rets).pbuf } := by
  simp [sent]

end ReceivedSent

/-! ### The invariant -/

/-- Nothing of a connection happens after its `close_connect`: no second one,
and neither handler is dispatched. -/
def Tidy (trace : List Obs) : Prop :=
  trace.Pairwise fun o o' => ∀ a, o = .closeConnect a →
    o' ≠ .closeConnect a ∧ o' ≠ .handleRead a ∧ o' ≠ .handleWrite a

/-- `A` tells which connections the subclass is ready to close; `busy` is the
connection whose write path is running, which may be about to close. -/
structure Inv (A : ε → Nat → Prop) (busy : Option Nat) (w : TcpServer ε) : Prop where
  registered : ∀ a ∈ w.streams, w.ploop.handles (w.heap a).fd = some (.stream a) ∧
    w.ploop.select_ (w.heap a).fd = some (w.heap a).events
  handled : ∀ fd a, w.ploop.handles fd = some (.stream a) → a ∈ w.streams ∧ (w.heap a).fd = fd
  numbered : ∀ a ∈ w.streams, 0 < a ∧ a ≤ w.maxConnectId
  unsent : ∀ a ∈ w.streams, (w.heap a).pwriteBuf ≠ [] → (w.heap a).events.write = true
  closing : ∀ a ∈ w.streams, some a ≠ busy → (w.heap a).closing = true →
    (w.heap a).pwriteBuf ≠ []
  owned : ∀ a ∈ w.streams,
    (w.heap a).closing = true ∨ (w.heap a).pwriteBuf ≠ [] ∨ (w.senders a).isSome = true →
      A w.ext a
  gone : ∀ a ∉ w.streams, (w.heap a).revents = {} ∧
    (0 < a → a ≤ w.maxConnectId → (w.heap a).closing = true)
  known : ∀ a, (w.senders a).isSome = true → 0 < a ∧ a ≤ w.maxConnectId
  tidy : Tidy w.trace
  torn : ∀ a, .closeConnect a ∈ w.trace → a ∉ w.streams ∧ a ≤ w.maxConnectId

namespace Inv

theorem bind (fd : Nat) (ext : ε) : Inv A none (TcpServer.bind fd ext) where
  registered a ha := by simp [TcpServer.bind] at ha
  handled fd' a h := by
    simp only [TcpServer.bind, Function.update_apply] at h
    split at h <;> simp at h
  numbered a ha := by simp [TcpServer.bind] at ha
  unsent a ha := by simp [TcpServer.bind] at ha
  closing a ha := by simp [TcpServer.bind] at ha
  owned a ha := by simp [TcpServer.bind] at ha
  gone a _ := ⟨rfl, fun hpos hle => absurd (hpos.trans_le hle) (Nat.lt_irrefl 0)⟩
  known a h := by simp [TcpServer.bind] at h
  tidy := List.Pairwise.nil
  torn a h := by simp [TcpServer.bind] at h

theorem idle (h : Inv A none w) (busy : Option Nat) : Inv A busy w where
  __ := h
  closing b hb _ hc := h.closing b hb (by simp) hc

/-- Two connections in `streams` have different descriptors. -/
theorem fd_ne (h : Inv A busy w) {b : Nat} (ha : a ∈ w.streams) (hb : b ∈ w.streams)
    (hne : b ≠ a) : (w.heap b).fd ≠ (w.heap a).fd := by
  intro heq
  have hb' := (h.registered b hb).1
  rw [heq, (h.registered a ha).1] at hb'
  simp only [Option.some.injEq, HandleRef.stream.injEq] at hb'
  exact hne hb'.symm

/-- A connection with an event to handle is in `streams`. -/
theorem mem_of_revents (h : Inv A busy w) (hr : (w.heap a).revents ≠ {}) : a ∈ w.streams := by
  by_contra hn
  exact hr (h.gone a hn).1

/-- Everything but `close_connect` may be logged for a connection that has not
been closed. -/
theorem log (h : Inv A busy w) {o : Obs}
    (ho : ∀ b, o ≠ .closeConnect b ∧ (o = .handleRead b ∨ o = .handleWrite b → b ∈ w.streams)) :
    Inv A busy (w.log o) where
  __ := h
  tidy := by
    refine List.pairwise_append.mpr ⟨h.tidy, List.pairwise_singleton _ _, ?_⟩
    rintro x hx y hy b rfl
    obtain rfl := List.mem_singleton.mp hy
    have hb := (h.torn b hx).1
    exact ⟨(ho b).1, fun he => hb ((ho b).2 (.inl he)), fun he => hb ((ho b).2 (.inr he))⟩
  torn b hb := by
    rcases List.mem_append.mp hb with hb | hb
    · exact h.torn b hb
    · exact absurd (List.mem_singleton.mp hb).symm (ho b).1

/-- A change to one stream object that respects the flags of that object. -/
theorem modify (h : Inv A busy w) {f : TcpStream → TcpStream} {busy' : Option Nat}
    (hfd : (f (w.heap a)).fd = (w.heap a).fd)
    (hevents : (f (w.heap a)).events = (w.heap a).events)
    (hin : a ∈ w.streams →
      ((f (w.heap a)).pwriteBuf ≠ [] → (w.heap a).events.write = true) ∧
      (some a ≠ busy' → (f (w.heap a)).closing = true → (f (w.heap a)).pwriteBuf ≠ []) ∧
      ((f (w.heap a)).closing = true ∨ (f (w.heap a)).pwriteBuf ≠ [] → A w.ext a))
    (hout : a ∉ w.streams → (f (w.heap a)).revents = {} ∧
      ((w.heap a).closing = true → (f (w.heap a)).closing = true))
    (hbusy : ∀ b, b ≠ a → some b ≠ busy' → some b ≠ busy) :
    Inv A busy' (w.modify a f) where
  registered b hb := by
    have := h.registered b hb
    by_cases hba : b = a
    · subst hba
      simpa [hfd, hevents] using this
    · simpa [TcpServer.modify_heap_of_ne f hba] using this
  handled fd b hb := by
    obtain ⟨hmem, heq⟩ := h.handled fd b hb
    refine ⟨hmem, ?_⟩
    by_cases hba : b = a
    · subst hba
      simpa [hfd] using heq
    · simpa [TcpServer.modify_heap_of_ne f hba] using heq
  numbered := h.numbered
  unsent b hb := by
    by_cases hba : b = a
    · subst hba
      simpa [hevents] using (hin hb).1
    · simpa [TcpServer.modify_heap_of_ne f hba] using h.unsent b hb
  closing b hb hne := by
    by_cases hba : b = a
    · subst hba
      simpa using (hin hb).2.1 hne
    · simpa [TcpServer.modify_heap_of_ne f hba] using h.closing b hb (hbusy b hba hne)
  owned b hb := by
    by_cases hba : b = a
    · subst hba
      rw [TcpServer.modify_heap_self]
      rintro (hc | hu | hs)
      · exact (hin hb).2.2 (.inl hc)
      · exact (hin hb).2.2 (.inr hu)
      · exact h.owned b hb (.inr (.inr hs))
    · simpa [TcpServer.modify_heap_of_ne f hba] using h.owned b hb
  gone b hb := by
    by_cases hba : b = a
    · subst hba
      rw [TcpServer.modify_heap_self]
      exact ⟨(hout hb).1, fun hpos hle => (hout hb).2 ((h.gone b hb).2 hpos hle)⟩
    · simpa [TcpServer.modify_heap_of_ne f hba] using h.gone b hb
  known := h.known
  tidy := h.tidy
  torn := h.torn

/-- What has been read is no part of the invariant. -/
theorem modifyRead (h : Inv A busy w) (f : TcpStream → Bytes) :
    Inv A busy (w.modify a fun s => { s with preadBuf := f s }) := by
  refine h.modify rfl rfl (fun ha => ⟨h.unsent a ha, h.closing a ha, ?_⟩)
    (fun hn => ⟨(h.gone a hn).1, id⟩) (fun _ _ hb => hb)
  rintro (hc | hu)
  · exact h.owned a ha (.inl hc)
  · exact h.owned a ha (.inr (.inl hu))

end Inv

/-! ### Interests -/

/-- The interests of `a` become `e`, in the handle and in the selector. -/
def TcpServer.setEvents (w : TcpServer ε) (a : Nat) (e : Events) : TcpServer ε :=
  { w.modify a (fun s => { s with events := e }) with
    ploop := { w.ploop with select_ := update w.ploop.select_ (w.heap a).fd (some e) } }

section SetEvents

variable (e : Events) (b : Nat)

@[simp] theorem TcpServer.setEvents_streams : (w.setEvents a e).streams = w.streams := rfl
@[simp] theorem TcpServer.setEvents_senders : (w.setEvents a e).senders = w.senders := rfl
@[simp] theorem TcpServer.setEvents_ext : (w.setEvents a e).ext = w.ext := rfl
@[simp] theorem TcpServer.setEvents_trace : (w.setEvents a e).trace = w.trace := rfl
@[simp] theorem TcpServer.setEvents_maxConnectId :
    (w.setEvents a e).maxConnectId = w.maxConnectId := rfl
@[simp] theorem TcpServer.setEvents_handles :
    (w.setEvents a e).ploop.handles = w.ploop.handles := rfl

theorem TcpServer.setEvents_heap :
    (w.setEvents a e).heap b = if b = a then { w.heap a with events := e } else w.heap b :=
  TcpServer.modify_heap (fun s => { s with events := e }) b

@[simp] theorem TcpServer.setEvents_heap_self :
    (w.setEvents a e).heap a = { w.heap a with events := e } := by
  simp [setEvents_heap]

@[simp] theorem TcpServer.setEvents_fd : ((w.setEvents a e).heap b).fd = (w.heap b).fd := by
  rw [setEvents_heap]
  split
  · subst b; rfl
  · rfl

@[simp] theorem TcpServer.setEvents_pwriteBuf :
    ((w.setEvents a e).heap b).pwriteBuf = (w.heap b).pwriteBuf := by
  rw [setEvents_heap]
  split
  · subst b; rfl
  · rfl

@[simp] theorem TcpServer.setEvents_closing :
    ((w.setEvents a e).heap b).closing = (w.heap b).closing := by
  rw [setEvents_heap]
  split
  · subst b; rfl
  · rfl

@[simp] theorem TcpServer.setEvents_revents :
    ((w.setEvents a e).heap b).revents = (w.heap b).revents := by
  rw [setEvents_heap]
  split
  · subst b; rfl
  · rfl

end SetEvents

theorem Inv.setEvents (h : Inv A busy w) (ha : a ∈ w.streams) {e : Events}
    (he : (w.heap a).pwriteBuf ≠ [] → e.write = true) : Inv A busy (w.setEvents a e) where
  registered b hb := by
    have hreg := h.registered b hb
    refine ⟨by simpa using hreg.1, ?_⟩
    rw [TcpServer.setEvents_fd, TcpServer.setEvents_heap]
    by_cases hba : b = a
    · subst hba
      simp [TcpServer.setEvents]
    · simpa [TcpServer.setEvents, hba, h.fd_ne ha hb hba] using hreg.2
  handled fd b hb := by simpa using h.handled fd b hb
  numbered := h.numbered
  unsent b hb := by
    rw [TcpServer.setEvents_pwriteBuf, TcpServer.setEvents_heap]
    by_cases hba : b = a
    · subst hba
      simpa using he
    · simpa [hba] using h.unsent b hb
  closing b hb := by simpa using h.closing b hb
  owned b hb := by simpa using h.owned b hb
  gone b hb := by simpa using h.gone b hb
  known := h.known
  tidy := h.tidy
  torn := h.torn

/-! ### Leaving `streams` -/

/-- What `TcpServer::close_connect` does to a connection in `streams`. -/
def TcpServer.tearDown (w : TcpServer ε) (a : Nat) : TcpServer ε :=
  { (w.log (.closeConnect a)).modify a (fun s => { s with revents := {} }) with
    streams := w.streams.erase a
    ploop :=
      { select_ := update w.ploop.select_ (w.heap a).fd none
        handles := update w.ploop.handles (w.heap a).fd none } }

section TearDown

variable (w) (a)

@[simp] theorem TcpServer.tearDown_streams : (w.tearDown a).streams = w.streams.erase a := rfl
@[simp] theorem TcpServer.tearDown_senders : (w.tearDown a).senders = w.senders := rfl
@[simp] theorem TcpServer.tearDown_ext : (w.tearDown a).ext = w.ext := rfl
@[simp] theorem TcpServer.tearDown_trace :
    (w.tearDown a).trace = w.trace ++ [.closeConnect a] := rfl
@[simp] theorem TcpServer.tearDown_maxConnectId :
    (w.tearDown a).maxConnectId = w.maxConnectId := rfl
@[simp] theorem TcpServer.tearDown_handles :
    (w.tearDown a).ploop.handles = update w.ploop.handles (w.heap a).fd none := rfl
@[simp] theorem TcpServer.tearDown_select :
    (w.tearDown a).ploop.select_ = update w.ploop.select_ (w.heap a).fd none := rfl

theorem TcpServer.tearDown_heap (b : Nat) :
    (w.tearDown a).heap b = if b = a then { w.heap a with revents := {} } else w.heap b :=
  TcpServer.modify_heap (w := w.log (.closeConnect a)) (fun s => { s with revents := {} }) b

end TearDown

/-- A `close_connect` that returns has done just that. -/
theorem TcpServer.eq_tearDown {w' : TcpServer ε} (h : closeConnect a w = .ok w') :
    w' = w.tearDown a := by
  by_cases ha : a ∈ w.streams
  · cases hfd : (w.ploop.select_ (w.heap a).fd).isSome with
    | false =>
        simp [closeConnect, ha, unregistHandle, onLoop, EventLoop.unregistHandle, hfd, abort] at h
    | true =>
        simp only [closeConnect, log_streams, if_pos ha, unregistHandle, onLoop,
          EventLoop.unregistHandle, log_ploop, log_heap, hfd, if_true] at h
        cases h
        rfl
  · simp [closeConnect, ha, abort] at h

theorem Inv.closeConnect_eq (h : Inv A busy w) (ha : a ∈ w.streams) :
    TcpServer.closeConnect a w = .ok (w.tearDown a) := by
  simp only [TcpServer.closeConnect, TcpServer.log_streams, if_pos ha, TcpServer.unregistHandle,
    TcpServer.onLoop, EventLoop.unregistHandle, TcpServer.log_ploop, TcpServer.log_heap,
    (h.registered a ha).2, Option.isSome_some, if_true]
  rfl

theorem Inv.tearDown (h : Inv A (some a) w) (ha : a ∈ w.streams)
    (hc : (w.heap a).closing = true) : Inv A none (w.tearDown a) where
  registered b hb := by
    obtain ⟨hba, hb⟩ := Finset.mem_erase.mp hb
    simpa [TcpServer.tearDown_heap, hba, h.fd_ne ha hb hba] using h.registered b hb
  handled fd b hb := by
    simp only [TcpServer.tearDown_handles, Function.update_apply] at hb
    split at hb
    · cases hb
    · rename_i hfd
      obtain ⟨hmem, heq⟩ := h.handled fd b hb
      have hba : b ≠ a := by
        rintro rfl
        exact hfd heq.symm
      exact ⟨Finset.mem_erase.mpr ⟨hba, hmem⟩, by simpa [TcpServer.tearDown_heap, hba] using heq⟩
  numbered b hb := h.numbered b (Finset.mem_of_mem_erase hb)
  unsent b hb := by
    obtain ⟨hba, hb⟩ := Finset.mem_erase.mp hb
    simpa [TcpServer.tearDown_heap, hba] using h.unsent b hb
  closing b hb _ := by
    obtain ⟨hba, hb⟩ := Finset.mem_erase.mp hb
    simpa [TcpServer.tearDown_heap, hba] using h.closing b hb (by simpa using hba)
  owned b hb := by
    obtain ⟨hba, hb⟩ := Finset.mem_erase.mp hb
    simpa [TcpServer.tearDown_heap, hba] using h.owned b hb
  gone b hb := by
    by_cases hba : b = a
    · subst hba
      simpa [TcpServer.tearDown_heap] using fun _ _ => hc
    · have hb' : b ∉ w.streams := fun hm => hb (Finset.mem_erase.mpr ⟨hba, hm⟩)
      simpa [TcpServer.tearDown_heap, hba] using h.gone b hb'
  known := h.known
  tidy := by
    refine List.pairwise_append.mpr ⟨h.tidy, List.pairwise_singleton _ _, ?_⟩
    rintro x hx y hy b rfl
    obtain rfl := List.mem_singleton.mp hy
    refine ⟨?_, by simp, by simp⟩
    intro heq
    cases heq
    exact (h.torn _ hx).1 ha
  torn b hb := by
    rcases List.mem_append.mp hb with hb | hb
    · obtain ⟨hn, hle⟩ := h.torn b hb
      exact ⟨fun hm => hn (Finset.mem_of_mem_erase hm), hle⟩
    · cases List.mem_singleton.mp hb
      exact ⟨Finset.notMem_erase _ _, (h.numbered _ ha).2⟩

/-! ### Entering `streams` -/

/-- What `TcpServer::new_connect` does when the descriptor is new to the loop. -/
def TcpServer.connected (w : TcpServer ε) (fd : Nat) : TcpServer ε :=
  let id := w.maxConnectId + 1
  let s : TcpStream := { fd := fd, events := { read := true, error := true } }
  { w with
    maxConnectId := id
    heap := update w.heap id s
    ploop :=
      { select_ := update w.ploop.select_ fd (some s.events)
        handles := update w.ploop.handles fd (some (.stream id)) }
    streams := insert id w.streams }

theorem TcpServer.newConnect_eq (w : TcpServer ε) (fd : Nat) (peer : Bool) :
    TcpServer.newConnect fd peer w =
      if peer then
        if (w.ploop.select_ fd).isSome then .error ⟨.addHandle, w.trace⟩ else .ok (w.connected fd)
      else .error ⟨.getpeername, w.trace⟩ := by
  cases peer with
  | false => rfl
  | true =>
      cases hfd : (w.ploop.select_ fd).isSome with
      | true => simp [newConnect, onLoop, EventLoop.registHandle, hfd, abort]
      | false =>
          simp [newConnect, onLoop, EventLoop.registHandle, hfd, connected, modify]

section Connected

variable (w) (fd : Nat)

@[simp] theorem TcpServer.connected_streams :
    (w.connected fd).streams = insert (w.maxConnectId + 1) w.streams := rfl
@[simp] theorem TcpServer.connected_senders : (w.connected fd).senders = w.senders := rfl
@[simp] theorem TcpServer.connected_ext : (w.connected fd).ext = w.ext := rfl
@[simp] theorem TcpServer.connected_trace : (w.connected fd).trace = w.trace := rfl
@[simp] theorem TcpServer.connected_maxConnectId :
    (w.connected fd).maxConnectId = w.maxConnectId + 1 := rfl
@[simp] theorem TcpServer.connected_heap : (w.connected fd).heap =
    update w.heap (w.maxConnectId + 1)
      { fd := fd, events := { read := true, error := true } } := rfl
@[simp] theorem TcpServer.connected_handles : (w.connected fd).ploop.handles =
    update w.ploop.handles fd (some (.stream (w.maxConnectId + 1))) := rfl
@[simp] theorem TcpServer.connected_select : (w.connected fd).ploop.select_ =
    update w.ploop.select_ fd (some { read := true, error := true }) := rfl

end Connected

/-- The next id is that of no connection. -/
theorem Inv.ne_next (h : Inv A busy w) {b : Nat} (hb : b ∈ w.streams) :
    b ≠ w.maxConnectId + 1 := by
  have hle := (h.numbered b hb).2
  omega

theorem Inv.connected (h : Inv A none w) {fd : Nat} (hfd : (w.ploop.select_ fd).isSome = false) :
    Inv A none (w.connected fd) where
  registered b hb := by
    rcases Finset.mem_insert.mp hb with rfl | hb
    · simp
    · have hne := h.ne_next hb
      have hreg := h.registered b hb
      have hfdne : (w.heap b).fd ≠ fd := by
        intro heq
        rw [← heq, hreg.2] at hfd
        cases hfd
      simpa [hne, hfdne] using hreg
  handled fd' b hb := by
    simp only [TcpServer.connected_handles, Function.update_apply] at hb
    split at hb
    · rename_i heq
      cases hb
      exact ⟨Finset.mem_insert_self _ _, by simp [heq]⟩
    · obtain ⟨hmem, heq⟩ := h.handled fd' b hb
      have hne := h.ne_next hmem
      exact ⟨Finset.mem_insert_of_mem hmem, by simpa [hne] using heq⟩
  numbered b hb := by
    rcases Finset.mem_insert.mp hb with rfl | hb
    · simp
    · exact ⟨(h.numbered b hb).1, (h.numbered b hb).2.trans (Nat.le_succ _)⟩
  unsent b hb := by
    rcases Finset.mem_insert.mp hb with rfl | hb
    · simp
    · have hne := h.ne_next hb
      simpa [hne] using h.unsent b hb
  closing b hb := by
    rcases Finset.mem_insert.mp hb with rfl | hb
    · simp
    · have hne := h.ne_next hb
      simpa [hne] using h.closing b hb
  owned b hb := by
    rcases Finset.mem_insert.mp hb with rfl | hb
    · intro ho
      have := (h.known (w.maxConnectId + 1) (by simpa using ho)).2
      omega
    · have hne := h.ne_next hb
      simpa [hne] using h.owned b hb
  gone b hb := by
    simp only [TcpServer.connected_streams, Finset.mem_insert, not_or] at hb
    obtain ⟨hrevents, hclosing⟩ := h.gone b hb.2
    refine ⟨by simpa [hb.1] using hrevents, ?_⟩
    intro hpos hle
    have : b ≤ w.maxConnectId := by
      have := hb.1
      simp only [TcpServer.connected_maxConnectId] at hle
      omega
    simpa [hb.1] using hclosing hpos this
  known b hb := ⟨(h.known b hb).1, (h.known b hb).2.trans (Nat.le_succ _)⟩
  tidy := h.tidy
  torn b hb := by
    obtain ⟨hn, hle⟩ := h.torn b hb
    refine ⟨?_, hle.trans (Nat.le_succ _)⟩
    simp only [TcpServer.connected_streams, Finset.mem_insert, not_or]
    exact ⟨by omega, hn⟩

end MixServer.Server
