import MixServer.Server.BufferedRuns
import MixServer.Server.ProtoMsg

/-!
Sending from a script: `send_msg` of `script/proto.py`, `_engine::send`
(`pyengine/_engine.cpp`), `ProtoMsg::write` and `MsgServer::send_msg`.

A serialised message may hold any bytes, but on the way its length is compared
with what `strlen` says. `reaches_wire_iff` says exactly which payloads reach the
connection's write buffer as their frame, over the memory of that buffer.
-/

namespace MixServer.Server

open Lib Net

/-! ### The path of a message -/

/-- Why a message is not sent. -/
inductive SendStop where
  /-- `PyArg_ParseTuple` fails: the size does not fit an `int`. -/
  | parseTuple
  /-- `_engine::send`: `strlen(s)==size`. -/
  | strlen
  /-- `MsgServer::send_msg`: `pmsg->len > 0`. -/
  | sendLen
  /-- `MsgServer::send_msg`: the connection is not in `streams`. -/
  | sendStream
  /-- In `TcpStream::send`. -/
  | crash (x : Crash)
deriving DecidableEq, Repr

/-- A protobuf message of the script, as far as sending looks at it. -/
structure PbMsg where
  serviceId : BitVec 32
  commandId : BitVec 32
  serializeToString : Bytes
deriving DecidableEq, Repr

variable {ε : Type} (alloc : Buffered ε → Nat → UInt8) (stack : Stack)

/-- `MsgServer::send_msg`. -/
def MsgServer.sendProtoMsg (connId : Nat) (pmsg : ProtoMsg) (m : Buffered ε) :
    Except SendStop (Buffered ε) :=
  if 0 < pmsg.len then
    if connId ∈ m.server.streams then
      (BufferedTcpStream.send alloc connId (pmsg.getRaw stack) m).mapError .crash
    else
      .error .sendStream
  else
    .error .sendLen

/-- `_engine::send`; the script gets the size back. -/
def Engine.send (uid : Nat) (serviceId commandId : BitVec 32) (s : Bytes) (m : Buffered ε) :
    Except SendStop (Buffered ε × Nat) :=
  let size := s.length
  if size < 2 ^ 31 then
    if strlen s = size then do
      let pm := ProtoMsg.make serviceId commandId
      let pm := pm.write s
      let m ← MsgServer.sendProtoMsg alloc stack uid pm m
      return (m, size)
    else
      .error .strlen
  else
    .error .parseTuple

/-- `send_msg` of `proto.py`. -/
def PyProto.sendMsg (uid : Nat) (pMsg : PbMsg) (m : Buffered ε) :
    Except SendStop (Buffered ε × Nat) :=
  let s := pMsg.serializeToString
  Engine.send alloc stack uid pMsg.serviceId pMsg.commandId s m

/-- The message is sent: its frame, and nothing else, is appended to what the
connection has to write. -/
def ReachesWire (uid : Nat) (pMsg : PbMsg) (m : Buffered ε) : Prop :=
  ∃ m', PyProto.sendMsg alloc stack uid pMsg m = .ok (m', pMsg.serializeToString.length) ∧
    ∀ a, (m'.pwrite a).readable = (m.pwrite a).readable ++
      if a = uid then
        ProtoMsg.frame pMsg.serviceId pMsg.commandId pMsg.serializeToString
      else []

variable {alloc} {stack} {m : Buffered ε} {uid : Nat} {pMsg : PbMsg}

theorem ProtoMsg.length_frame (serviceId commandId : BitVec 32) (payload : Bytes) :
    (frame serviceId commandId payload).length = payload.length + 12 := by
  rw [frame, List.length_append, length_leBytes, length_data]
  omega

/-- A payload without a zero byte is sent as its frame, as far as the size of a string goes. -/
theorem sendMsg_text (ha : uid ∈ m.server.streams) (hne : pMsg.serializeToString ≠ [])
    (htext : 0 ∉ pMsg.serializeToString) (hlen : pMsg.serializeToString.length < 2 ^ 31) :
    PyProto.sendMsg alloc stack uid pMsg m =
      ((BufferedTcpStream.send alloc uid (ProtoMsg.frame pMsg.serviceId pMsg.commandId
        pMsg.serializeToString) m).mapError .crash).map
          fun m' => (m', pMsg.serializeToString.length) := by
  obtain ⟨serviceId, commandId, s⟩ := pMsg
  have hpos := List.length_pos_of_ne_nil hne
  have hraw : ((ProtoMsg.make serviceId commandId).write s).getRaw stack =
      ProtoMsg.frame serviceId commandId s := by
    rw [write_make]
    exact ProtoMsg.getRaw_eq rfl hlen stack
  have hmsg : MsgServer.sendProtoMsg alloc stack uid
      ((ProtoMsg.make serviceId commandId).write s) m =
        (BufferedTcpStream.send alloc uid (ProtoMsg.frame serviceId commandId s) m).mapError
          .crash := by
    rw [MsgServer.sendProtoMsg, hraw, if_pos ha, if_pos]
    rw [write_make]
    simpa using hpos
  simp only [PyProto.sendMsg, Engine.send, if_pos hlen, if_pos (strlen_eq_length_iff.mpr htext),
    hmsg]
  cases BufferedTcpStream.send alloc uid (ProtoMsg.frame serviceId commandId s) m with
  | error x => rfl
  | ok m' => rfl

/-- What is sent has passed the checks of `_engine::send`. -/
theorem text_of_sendMsg {r : Buffered ε × Nat}
    (hsend : PyProto.sendMsg alloc stack uid pMsg m = .ok r) :
    0 ∉ pMsg.serializeToString ∧ pMsg.serializeToString.length < 2 ^ 31 := by
  simp only [PyProto.sendMsg, Engine.send] at hsend
  split at hsend
  · rename_i hlen
    split at hsend
    · rename_i hstrlen
      exact ⟨strlen_eq_length_iff.mp hstrlen, hlen⟩
    · cases hsend
  · cases hsend

/-- **What a script sends reaches the wire byte for byte** exactly when it has no
zero byte and the connection's write buffer takes a frame of that length. -/
theorem reaches_wire_iff {alloc : Buffered ConnMsgs → Nat → UInt8} {H : Handler} {fd : Nat}
    {es : List Buffered.Event} {m : Buffered ConnMsgs}
    (hrun : exec (Buffered.step alloc (bufferedMsgServer alloc H))
      (Buffered.bind fd fun _ => none) es = .ok m) {uid : Nat} (ha : uid ∈ m.server.streams)
    {pMsg : PbMsg} (hne : pMsg.serializeToString ≠ []) :
    ReachesWire alloc stack uid pMsg m ↔
      0 ∉ pMsg.serializeToString ∧ (m.pwrite uid).Takes (pMsg.serializeToString.length + 12) := by
  have hgood := (Buffered.run_good (BufferedMsgServer.sound alloc H) alloc fd _ es).of_ok hrun
  have hsent := hgood.send_iff ha alloc
    (ProtoMsg.frame pMsg.serviceId pMsg.commandId pMsg.serializeToString)
  rw [ProtoMsg.length_frame] at hsent
  constructor
  · rintro ⟨m', hsend, hreadable⟩
    obtain ⟨htext, hlen⟩ := text_of_sendMsg hsend
    refine ⟨htext, hsent.mp ⟨m', ?_, hreadable⟩⟩
    rw [sendMsg_text ha hne htext hlen] at hsend
    cases hm : BufferedTcpStream.send alloc uid (ProtoMsg.frame pMsg.serviceId pMsg.commandId
        pMsg.serializeToString) m with
    | error x =>
      rw [hm] at hsend
      cases hsend
    | ok m'' =>
      rw [hm] at hsend
      cases hsend
      rfl
  · rintro ⟨htext, htakes⟩
    have hlen : pMsg.serializeToString.length < 2 ^ 31 := by
      have hframe := htakes.1
      omega
    obtain ⟨m', hm', hreadable⟩ := hsent.mpr htakes
    refine ⟨m', ?_, hreadable⟩
    rw [sendMsg_text ha hne htext hlen, hm']
    rfl

/-- One connection has been accepted. -/
theorem run_accepted (alloc : Buffered ConnMsgs → Nat → UInt8) (H : Handler) :
    ∃ m, exec (Buffered.step alloc (bufferedMsgServer alloc H)) (Buffered.bind 3 fun _ => none)
        [.select 3 { read := true } ⟨⟨[], .error .EAGAIN⟩, [], .conn 4 true⟩] = .ok m ∧
      1 ∈ m.server.streams ∧ m.pwrite 1 = Buffer.new :=
  ⟨_, rfl, Finset.mem_insert_self _ _, rfl⟩

/-- A message of one text byte. -/
theorem reaches_wire_iff_text :
    ∃ m, exec (Buffered.step (fun _ _ => 0xCC) (bufferedMsgServer (fun _ _ => 0xCC)
          ⟨fun _ p => .ok p, fun _ => []⟩)) (Buffered.bind 3 fun _ => none)
        [.select 3 { read := true } ⟨⟨[], .error .EAGAIN⟩, [], .conn 4 true⟩] = .ok m ∧
      ∀ stack, ReachesWire (fun _ _ => 0xCC) stack 1 ⟨1000, 1, [8]⟩ m := by
  obtain ⟨m, hrun, ha, hnew⟩ := run_accepted (fun _ _ => 0xCC) ⟨fun _ p => .ok p, fun _ => []⟩
  refine ⟨m, hrun, fun stack => ?_⟩
  have htakes : (m.pwrite 1).Takes 13 := by
    rw [hnew]
    exact Buffer.takes_new (by decide)
  have hne : (⟨1000, 1, [8]⟩ : PbMsg).serializeToString ≠ [] := by decide
  exact (reaches_wire_iff hrun ha hne).mpr ⟨by decide, htakes⟩

/-- The encoding of an integer field that is zero. -/
theorem reaches_wire_iff_zero :
    ¬ ∀ (alloc : Buffered ConnMsgs → Nat → UInt8) (H : Handler) (es : List Buffered.Event)
      (m : Buffered ConnMsgs) (stack : Stack) (uid : Nat) (pMsg : PbMsg),
      exec (Buffered.step alloc (bufferedMsgServer alloc H)) (Buffered.bind 3 fun _ => none) es =
        .ok m →
      uid ∈ m.server.streams → pMsg.serializeToString ≠ [] →
      ReachesWire alloc stack uid pMsg m := by
  intro h
  obtain ⟨m, hrun, ha, -⟩ := run_accepted (fun _ _ => 0xCC) ⟨fun _ p => .ok p, fun _ => []⟩
  obtain ⟨m', hsend, -⟩ := h _ _ _ m ⟨List.replicate 12 0, List.replicate 4 0, rfl, rfl⟩ 1
    ⟨1000, 1, [8, 0]⟩ hrun ha (by decide)
  exact (text_of_sendMsg hsend).1 (by decide)

end MixServer.Server
