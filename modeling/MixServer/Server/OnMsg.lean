import MixServer.Server.ProtoMsg

/-!
`Proto::on_msg` (`proto/proto.cpp`): a message goes to the C++ handler of its ids,
or else to the Python one (`handle_pb_msg`, and `HandleMsg` of `script/proto.py`).

The C++ side parses the whole payload but does not look at the result; the Python
side does, but gets the payload through a C string. `on_msg_iff` says for which
payloads each side calls the handler with the parse of the whole payload, or not
at all where there is none.
-/

namespace MixServer.Server

open Lib Net

/-- A handler with the type of the message it takes. -/
structure MsgHandle (T η : Type) where
  msgType : T
  cb : η
deriving DecidableEq, Repr

/-- The tables of handlers, by service id and command id: `Proto::protos`, and
`protos` of `proto.py`, if Python has been initialised (`g_py_init`). -/
structure Protos (T η : Type) where
  protos : Int × Int → Option (MsgHandle T η)
  script : Option (Int × Int → Option (MsgHandle T η))

inductive Side where
  | cpp
  | python
deriving DecidableEq, Repr

/-- A handler is called. -/
structure Invoked (η M : Type) where
  side : Side
  cb : η
  uid : Nat
  message : M
deriving DecidableEq, Repr

variable {T η M : Type}

-- `ParseFromString` of a message type: what the object then holds, and whether it succeeds
variable (parseFromString : T → Bytes → M × Bool)

/-- `MsgHanle::get_ptmessage`: nobody asks whether the parse has succeeded. -/
def MsgHandle.getPtmessage (h : MsgHandle T η) (data : Bytes) : M :=
  (parseFromString h.msgType data).1

/-- `HandleMsg` of `proto.py`: what it returns, unless it raises, and the call it
makes. -/
def handleMsg (protos : Int × Int → Option (MsgHandle T η)) (sId cId : Int) (uid : Nat)
    (pbMsgStr : Bytes) : Option Int × List (Invoked η M) :=
  match protos (sId, cId) with
  | none => (some 0, [])
  | some h =>
      let m := parseFromString h.msgType pbMsgStr
      if m.2 then (some 1, [⟨.python, h.cb, uid, m.1⟩]) else (none, [])

namespace Protos

variable (R : Protos T η)

/-- `handle_pb_msg`; the format `(iiis)` takes the payload as a C string. -/
def handlePbMsg (sId cId : Int) (uid : Nat) (s : Bytes) : Int × List (Invoked η M) :=
  match R.script with
  | none => (0, [])
  | some protos =>
      let (pr, calls) := handleMsg parseFromString protos sId cId uid (cString s)
      (pr.getD 0, calls)

/-- `Proto::on_msg` of a message whose data is `prawData`. -/
def onMsg (uid : Nat) (prawData : Bytes) : Except Abort (List (Invoked η M)) := do
  let (sId, cId, data) ← ProtoMsg.readIds prawData
  match R.protos (sId, cId) with
  | some msgHandle =>
      return [⟨.cpp, msgHandle.cb, uid, msgHandle.getPtmessage parseFromString data⟩]
  | none => return (R.handlePbMsg parseFromString sId cId uid data).2

/-- The handler registered for the ids: the C++ one if present, otherwise the
Python one. -/
def find (ids : Int × Int) : Option (Side × MsgHandle T η) :=
  match R.protos ids with
  | some h => some (.cpp, h)
  | none => (R.script.bind fun protos => protos ids).map fun h => (.python, h)

end Protos

/-- The message that a payload encodes. -/
def parse (t : T) (payload : Bytes) : Option M :=
  let m := parseFromString t payload
  if m.2 then some m.1 else none

/-- The one handler is called if and only if the payload parses, and with the
parse of the whole payload. -/
def MeansTheSame (R : Protos T η) (uid : Nat) (serviceId commandId : BitVec 32)
    (payload : Bytes) : Prop :=
  R.onMsg parseFromString uid (ProtoMsg.data serviceId commandId payload) =
    .ok (match R.find (serviceId.toInt, commandId.toInt) with
      | none => []
      | some (side, h) =>
          ((parse parseFromString h.msgType payload).map fun m => ⟨side, h.cb, uid, m⟩).toList)

variable {parseFromString} {R : Protos T η}

/-- What `on_msg` does with the data of a frame. -/
theorem onMsg_data (R : Protos T η) (uid : Nat) (serviceId commandId : BitVec 32)
    {payload : Bytes} (hne : payload ≠ []) :
    R.onMsg parseFromString uid (ProtoMsg.data serviceId commandId payload) =
      .ok (match R.find (serviceId.toInt, commandId.toInt) with
        | none => []
        | some (.cpp, h) => [⟨.cpp, h.cb, uid, (parseFromString h.msgType payload).1⟩]
        | some (.python, h) =>
            ((parse parseFromString h.msgType (cString payload)).map fun m =>
              ⟨.python, h.cb, uid, m⟩).toList) := by
  simp only [Protos.onMsg, ProtoMsg.readIds_data, if_neg hne, ok_bind, Protos.find]
  cases R.protos (serviceId.toInt, commandId.toInt) with
  | some h => rfl
  | none =>
    simp only [Protos.handlePbMsg]
    cases R.script with
    | none => rfl
    | some protos =>
      simp only [handleMsg, Option.bind_some]
      cases protos (serviceId.toInt, commandId.toInt) with
      | none => rfl
      | some h =>
        simp only [Option.map_some, parse]
        split
        · rfl
        · rfl

/-- A call with the message is on record as such. -/
theorem toList_map_inj {side : Side} {cb : η} {uid : Nat} {m m' : Option M} :
    (m.map fun m => (⟨side, cb, uid, m⟩ : Invoked η M)).toList =
      (m'.map fun m => ⟨side, cb, uid, m⟩).toList ↔ m = m' := by
  cases m with
  | none => cases m' <;> simp
  | some a => cases m' <;> simp

/-- **A message means the same on both sides** exactly when it is not empty and,
on the C++ side, it parses; on the Python side, what stands before its first zero
byte parses to the same. -/
theorem on_msg_iff (R : Protos T η) (uid : Nat) (serviceId commandId : BitVec 32)
    (payload : Bytes) :
    MeansTheSame parseFromString R uid serviceId commandId payload ↔
      payload ≠ [] ∧
        match R.find (serviceId.toInt, commandId.toInt) with
        | none => True
        | some (.cpp, h) => (parse parseFromString h.msgType payload).isSome = true
        | some (.python, h) =>
            parse parseFromString h.msgType (cString payload) =
              parse parseFromString h.msgType payload := by
  by_cases hne : payload = []
  · subst hne
    simp [MeansTheSame, Protos.onMsg, ProtoMsg.readIds_data]
  · rw [MeansTheSame, onMsg_data R uid serviceId commandId hne]
    simp only [ne_eq, hne, not_false_eq_true, true_and, Except.ok.injEq]
    cases R.find (serviceId.toInt, commandId.toInt) with
    | none => simp
    | some found =>
      obtain ⟨side, h⟩ := found
      cases side with
      | cpp =>
        simp only [parse]
        split
        · simp
        · simp
      | python => exact toList_map_inj

/-- A message type with one `int32` field of number 1: the empty string, or a
small value after the tag. -/
def parseField (_ : Unit) : Bytes → UInt8 × Bool
  | [] => (0, true)
  | [0x08, v] => if v < 0x80 then (v, true) else (0, false)
  | _ => (0, false)

/-- The field is zero: its encoding is valid, but the Python handler is not
called. -/
theorem on_msg_iff_zero_field :
    ¬ ∀ (R : Protos Unit Unit) (uid : Nat) (serviceId commandId : BitVec 32) (payload : Bytes),
      MeansTheSame parseField R uid serviceId commandId payload := by
  intro h
  have hzero := h ⟨fun _ => none, some fun _ => some ⟨(), ()⟩⟩ 1 1000 1 [0x08, 0x00]
  revert hzero
  unfold MeansTheSame
  decide

end MixServer.Server
