import MixServer.Script.Session
import MixServer.Server.HandOver

/-!
The connections of an `HttpServer` that runs `script/httphandle.py`, side by side.

`httphandle` is the script on the side of the server: what the handler objects do, decided
from what has been handed over. It acts only on the connection it is called for, and
`LeavesAlone` says so of everything that the server does for one connection: nothing of
another one changes.
-/

namespace MixServer

open Lib Net Server Script
open Function (update)

/-! ### The script -/

namespace Script

/-- The effect on connection `a`. -/
def Effect.on (a : Nat) : Effect → Action
  | .send p => .send a p
  | .close => .close a
  | .setReadingLine value => .setReadingLine a value

/-- What the handler of connection `connId` has come to. -/
def handlerOf (lib : Library) (connId : Nat) (trace : List Obs) : PyHandler :=
  (handedTo connId trace).foldl
    (fun h o =>
      match o with
      | .handleLine _ line => (h.handleLine lib connId line).1
      | .handleMessage _ message => (h.handleMessage message).1
      | _ => h)
    (.http .new)

/-- The script `httphandle.py`: a call goes to the handler of its connection. -/
def httphandle (lib : Library) : Server.Script := fun trace =>
  match trace.getLast? with
  | some (.handleLine a line) =>
      ((handlerOf lib a trace.dropLast).handleLine lib a line).2.map (Effect.on a)
  | some (.handleMessage a message) =>
      ((handlerOf lib a trace.dropLast).handleMessage message).2.map (Effect.on a)
  | _ => []

section

variable {lib : Library} {a : Nat} {trace : List Obs}

theorem handlerOf_line (line : Bytes) :
    handlerOf lib a (trace ++ [.handleLine a line]) =
      ((handlerOf lib a trace).handleLine lib a line).1 := by
  rw [handlerOf, handedTo_append, handedTo_line, List.foldl_append]
  rfl

theorem handlerOf_message (message : Bytes) :
    handlerOf lib a (trace ++ [.handleMessage a message]) =
      ((handlerOf lib a trace).handleMessage message).1 := by
  rw [handlerOf, handedTo_append, handedTo_message, List.foldl_append]
  rfl

theorem httphandle_line (line : Bytes) :
    httphandle lib (trace ++ [.handleLine a line]) =
      ((handlerOf lib a trace).handleLine lib a line).2.map (Effect.on a) := by
  rw [httphandle, List.getLast?_concat, List.dropLast_concat]

theorem httphandle_message (message : Bytes) :
    httphandle lib (trace ++ [.handleMessage a message]) =
      ((handlerOf lib a trace).handleMessage message).2.map (Effect.on a) := by
  rw [httphandle, List.getLast?_concat, List.dropLast_concat]

end

end Script

namespace Server.HttpServer

variable {w w' : TcpServer HttpHandles} {a b : Nat}

/-! ### What one connection does to another -/

/-- Nothing of connection `b` has changed. -/
structure Apart (b : Nat) (w w' : TcpServer HttpHandles) : Prop where
  streams : b ∈ w'.streams ↔ b ∈ w.streams
  handles : b ∈ w'.ext.handles ↔ b ∈ w.ext.handles
  pyHandles : b ∈ w'.ext.pyHandles ↔ b ∈ w.ext.pyHandles
  heap : w'.heap b = w.heap b
  senders : w'.senders b = w.senders b
  handed : handedTo b w'.trace = handedTo b w.trace
  maxConnectId : w'.maxConnectId = w.maxConnectId

theorem Apart.refl (b : Nat) (w : TcpServer HttpHandles) : Apart b w w :=
  ⟨Iff.rfl, Iff.rfl, Iff.rfl, rfl, rfl, rfl, rfl⟩

theorem Apart.trans {w'' : TcpServer HttpHandles} (h : Apart b w w') (h' : Apart b w' w'') :
    Apart b w w'' :=
  ⟨h'.streams.trans h.streams, h'.handles.trans h.handles, h'.pyHandles.trans h.pyHandles,
    h'.heap.trans h.heap, h'.senders.trans h.senders, h'.handed.trans h.handed,
    h'.maxConnectId.trans h.maxConnectId⟩

/-- A method that leaves connection `b` alone. -/
def LeavesAlone (b : Nat) (f : Method HttpHandles) : Prop :=
  ∀ w, Ensures (f w) (Apart b w) fun _ => True

theorem leavesAlone_ok (b : Nat) : LeavesAlone b .ok := fun w => .refl b w

/-- One method after what has left `b` alone so far. -/
theorem LeavesAlone.after {r : Except Crash (TcpServer HttpHandles)} {f : Method HttpHandles}
    (hr : Ensures r (Apart b w) fun _ => True) (hf : LeavesAlone b f) :
    Ensures (r >>= f) (Apart b w) fun _ => True := by
  refine Ensures.bind hr ?_
  intro w₁ h₁
  exact (hf w₁).mono (fun _ h₂ => h₁.trans h₂) fun _ => id

/-- A method in a state that differs from `w` elsewhere. -/
theorem LeavesAlone.of_apart {f : Method HttpHandles} (hf : LeavesAlone b f) (h : Apart b w w') :
    Ensures (f w') (Apart b w) fun _ => True :=
  (hf w').mono (fun _ h' => h.trans h') fun _ => id

theorem apart_modify (hb : b ≠ a) (f : TcpStream → TcpStream) : Apart b w (w.modify a f) :=
  ⟨Iff.rfl, Iff.rfl, Iff.rfl, TcpServer.modify_heap_of_ne f hb, rfl, rfl, rfl⟩

theorem apart_log {o : Obs} (ho : handedTo b [o] = []) : Apart b w (w.log o) := by
  refine ⟨Iff.rfl, Iff.rfl, Iff.rfl, rfl, rfl, ?_, rfl⟩
  rw [TcpServer.log_trace, handedTo_append, ho, List.append_nil]

theorem apart_sender (hb : b ≠ a) (f : PySender → PySender) :
    Apart b w (PySender.modify a f w) :=
  ⟨Iff.rfl, Iff.rfl, Iff.rfl, rfl, Function.update_of_ne hb _ _, rfl, rfl⟩

theorem leavesAlone_onLoop (f : EventLoop → Except Abort EventLoop) :
    LeavesAlone b fun w => w.onLoop f := by
  intro w
  simp only [TcpServer.onLoop]
  cases f w.ploop with
  | ok l => exact ⟨Iff.rfl, Iff.rfl, Iff.rfl, rfl, rfl, rfl, rfl⟩
  | error c => trivial

theorem leavesAlone_updateEvent (a : Nat) : LeavesAlone b (TcpServer.updateEvent a) :=
  fun w => leavesAlone_onLoop _ w

theorem leavesAlone_closeConnect (hb : b ≠ a) : LeavesAlone b (closeConnect a) := by
  intro w
  have htrace := appends_closeConnect_silent a w
  cases h : closeConnect a w with
  | error x => trivial
  | ok w' =>
    rw [h] at htrace
    have hu := untouched_of_closeConnect h hb
    have hmax : w'.maxConnectId = w.maxConnectId := by
      simp only [closeConnect] at h
      obtain ⟨w₁, hbase, h⟩ := bind_eq_ok.mp h
      obtain rfl := TcpServer.eq_tearDown hbase
      split at h
      · obtain ⟨w₂, hpy, h⟩ := bind_eq_ok.mp h
        cases h
        simp only [pyHandleClose] at hpy
        split at hpy
        · split at hpy
          · cases hpy
            rfl
          · cases hpy
        · cases hpy
          rfl
      · cases h
    exact ⟨hu.streams, hu.handles, hu.pyHandles, hu.heap, hu.senders,
      Extends.handedTo_eq htrace b, hmax⟩

theorem leavesAlone_close (hb : b ≠ a) : LeavesAlone b (TcpStream.close closeConnect a) := by
  intro w
  have hclosing : Apart b w (w.modify a fun s => { s with closing := true }) := apart_modify hb _
  simp only [TcpStream.close]
  split
  · refine LeavesAlone.after ((leavesAlone_closeConnect hb).of_apart hclosing) ?_
    exact fun w₁ => apart_modify hb _
  · exact hclosing

theorem leavesAlone_perform (hb : b ≠ a) (e : Effect) :
    LeavesAlone b fun w => (e.on a).perform closeConnect w := by
  intro w
  cases e with
  | send p =>
    simp only [Effect.on, Action.perform]
    split
    · have happend : Apart b w (w.modify a fun s => { s with pwriteBuf := s.pwriteBuf ++ p }) :=
        apart_modify hb _
      exact (leavesAlone_updateEvent a).of_apart (happend.trans (apart_modify hb _))
    · exact .refl b w
  | close =>
    simp only [Effect.on, Action.perform]
    split
    · exact .refl b w
    · split
      · exact .refl b w
      · exact LeavesAlone.after (leavesAlone_close hb w) fun w₁ => apart_sender hb _
  | setReadingLine value => exact apart_sender hb _

theorem leavesAlone_effects (hb : b ≠ a) (effects : List Effect) :
    LeavesAlone b fun w => exec (Action.perform closeConnect) w (effects.map (Effect.on a)) := by
  induction effects with
  | nil => exact leavesAlone_ok b
  | cons e effects ih =>
    intro w
    simp only [List.map_cons, exec_cons]
    exact LeavesAlone.after (leavesAlone_perform hb e w) ih

variable {lib : Library}

/-- The script acts on the connection that it is called for. -/
theorem leavesAlone_handleLine (hb : b ≠ a) (line : Bytes) :
    LeavesAlone b (callHandler (httphandle lib) a (.handleLine a line)) := by
  intro w
  unfold callHandler
  split
  · have hlog : Apart b w (w.log (.handleLine a line)) :=
      apart_log (by simp [handedTo, Obs.handedOf, Obs.lineOf, Obs.messageOf, hb.symm])
    rw [Script.call, TcpServer.log_trace, httphandle_line]
    exact (leavesAlone_effects hb _).of_apart hlog
  · exact .refl b w

theorem leavesAlone_handleMessage (hb : b ≠ a) (message : Bytes) :
    LeavesAlone b (callHandler (httphandle lib) a (.handleMessage a message)) := by
  intro w
  unfold callHandler
  split
  · have hlog : Apart b w (w.log (.handleMessage a message)) :=
      apart_log (by simp [handedTo, Obs.handedOf, Obs.lineOf, Obs.messageOf, hb.symm])
    rw [Script.call, TcpServer.log_trace, httphandle_message]
    exact (leavesAlone_effects hb _).of_apart hlog
  · exact .refl b w

theorem leavesAlone_lineLoop (hb : b ≠ a) (turns : Nat) :
    LeavesAlone b (lineLoop (httphandle lib) a turns) := by
  induction turns with
  | zero => exact leavesAlone_ok b
  | succ turns ih =>
    intro w
    simp only [lineLoop]
    split
    · exact .refl b w
    · exact LeavesAlone.after ((leavesAlone_handleLine hb _).of_apart (apart_modify hb _)) ih

theorem apart_entered (hb : b ≠ a) : Apart b w (entered a w) := by
  unfold entered
  split
  · exact .refl b w
  · refine ⟨Iff.rfl, ?_, ?_, rfl, ?_, ?_, rfl⟩
    · exact Finset.mem_insert.trans (or_iff_right hb)
    · exact Finset.mem_insert.trans (or_iff_right hb)
    · exact Function.update_of_ne hb _ _
    · exact (Extends.single (fun _ => ⟨rfl, rfl⟩) w.trace : Extends Obs.Silent _ _).handedTo_eq b

theorem apart_received (hb : b ≠ a) (chunk : Bytes) : Apart b w (w.received a chunk) :=
  (apart_log rfl).trans (apart_modify hb _)

/-- **Reading** from one connection leaves the others alone. -/
theorem readable_others (ha : a ∈ w.streams) (hb : b ≠ a) (chunk : Bytes) :
    Ensures (readable (httpServer (httphandle lib)) w (a, chunk)) (Apart b w) fun _ => True := by
  have hstart : Apart b w (entered a (w.received a chunk)) :=
    (apart_received hb chunk).trans (apart_entered hb)
  rw [readable_http ha]
  unfold httpHandleRead
  split
  · exact (leavesAlone_lineLoop hb _).of_apart hstart
  · split
    · trivial
    · exact (leavesAlone_handleMessage hb _).of_apart (hstart.trans (apart_modify hb _))

/-- Data always has somewhere to go. -/
theorem readable_inv (script : Server.Script) (h : Inv Handled none w) (ha : a ∈ w.streams)
    {chunk : Bytes} (hne : chunk ≠ []) :
    Ensures (readable (httpServer script) w (a, chunk)) (Inv Handled none) fun _ => False := by
  have hrecv := h.received ha chunk
  have hinv : Inv Handled none (entered a (w.received a chunk)) := by
    unfold entered
    split
    · exact hrecv
    · exact inv_makeHandle hrecv ha
  have hbuf : ((entered a (w.received a chunk)).heap a).preadBuf ≠ [] := by
    rw [entered_heap, TcpServer.received_heap_self]
    exact List.append_ne_nil_of_right_ne_nil _ hne
  rw [readable_http ha, httpHandleRead, if_neg hbuf]
  split
  · exact inv_lineLoop hinv _
  · exact inv_callHandler (hinv.modifyRead fun _ => []) _ (by simp)

/-! ### Writing -/

/-- A server that only closes as `HttpServer` does: what `handle_write` uses of it. -/
def closer : ServerClass HttpHandles := { httpServer (fun _ => []) with handleRead := fun _ => .ok }

theorem respects_closer : Respects Handled (fun _ => False) closer where
  closes := closes_http
  reads h _ := h

theorem leavesAlone_afterWrite (hb : b ≠ a) : LeavesAlone b (TcpStream.afterWrite closer a) := by
  intro w
  simp only [TcpStream.afterWrite]
  split
  · have hdisable : LeavesAlone b (TcpStream.disableWrite a) := fun w =>
      (leavesAlone_updateEvent a).of_apart (apart_modify hb _)
    refine LeavesAlone.after (hdisable w) ?_
    intro w₁
    dsimp only
    split
    · exact leavesAlone_close hb w₁
    · exact .refl b w₁
  · exact .refl b w

/-- **Writing** to one connection leaves the others alone. -/
theorem handleWrite_others (hb : b ≠ a) (rets : List Socket.SendRet) :
    LeavesAlone b (TcpStream.handleWrite closer rets a) := by
  intro w
  have hsent : Apart b w (w.sent a rets) := (apart_log rfl).trans (apart_modify hb _)
  rw [TcpStream.handleWrite_eq]
  split
  · exact (leavesAlone_afterWrite hb).of_apart hsent
  · split
    · exact (leavesAlone_close hb).of_apart (hsent.trans (apart_log rfl))
    · exact (leavesAlone_afterWrite hb).of_apart hsent

end Server.HttpServer

end MixServer
