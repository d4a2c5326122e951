import MixServer.Server.MsgServer

/-!
`ProtoMsg` (`include/proto.hpp`): a message with a service id and a command id.

On the wire its length word is followed by the two ids and the payload.
`getRaw_eq` says that `get_raw` writes just that, whatever `pack_int` copies from
beyond its local variable, and `readIds_data` that `read_ids` reads it back.
`getRaw_readIds` puts the two together.
-/

namespace MixServer.Server

open Lib Net

namespace ProtoMsg

/-- What follows the length word on the wire. -/
def data (serviceId commandId : BitVec 32) (payload : Bytes) : Bytes :=
  leBytes 4 serviceId.toNat ++ leBytes 4 commandId.toNat ++ payload

/-- The whole frame of a message. -/
def frame (serviceId commandId : BitVec 32) (payload : Bytes) : Bytes :=
  leBytes 4 (payload.length + 8) ++ data serviceId commandId payload

end ProtoMsg

structure ProtoMsg extends Msg where
  serviceId : BitVec 32
  commandId : BitVec 32
deriving DecidableEq, Repr

/-- The memory that `get_raw` does not initialise: its array, and the bytes that
follow the local variable of `pack_int`. -/
structure Stack where
  buf : Bytes
  beyond : Bytes
  length_buf : buf.length = 12
  length_beyond : beyond.length = 4

/-- The bytes that `pack_int` copies, for a type of `size` bytes. -/
def packInt (size : Nat) (a : Int) (beyond : Bytes) : Bytes :=
  (leBytes 4 (a % 2 ^ 32).toNat ++ beyond).take size

/-- Bytes stored in an array from position `p` on. -/
def store (buf : Bytes) (p : Nat) (bytes : Bytes) : Bytes :=
  buf.take p ++ bytes ++ buf.drop (p + bytes.length)

namespace ProtoMsg

/-- `ProtoMsg::ProtoMsg`. -/
def make (serviceId commandId : BitVec 32) : ProtoMsg :=
  { serviceId := serviceId, commandId := commandId }

/-- `Msg::reset_len`. -/
def resetLen (m : ProtoMsg) : ProtoMsg :=
  { m with len := m.prawData.length, hasWriteSize := m.prawData.length }

/-- `ProtoMsg::write(const char*, int)`. -/
def write (m : ProtoMsg) (s : Bytes) : ProtoMsg := resetLen { m with toMsg := m.toMsg.write s }

/-- `ProtoMsg::get_raw`. The length is packed as a `size_t`, of eight bytes. -/
def getRaw (m : ProtoMsg) (stack : Stack) : Bytes :=
  let p := 0
  let buf := store stack.buf p (packInt 8 (m.len + 8) stack.beyond)
  let p := p + 4
  let buf := store buf p (packInt 4 m.serviceId.toInt stack.beyond)
  let p := p + 4
  let buf := store buf p (packInt 4 m.commandId.toInt stack.beyond)
  buf ++ m.prawData

end ProtoMsg

/-! ### The layout -/

theorem packInt_eight (a : Int) {beyond : Bytes} (h : beyond.length = 4) :
    packInt 8 a beyond = leBytes 4 (a % 2 ^ 32).toNat ++ beyond := by
  rw [packInt, List.take_of_length_le]
  simp [h]

theorem packInt_id (id : BitVec 32) (beyond : Bytes) :
    packInt 4 id.toInt beyond = leBytes 4 id.toNat := by
  have hmod : (id.toInt % 2 ^ 32).toNat = id.toNat := by
    have hlt := id.isLt
    rw [BitVec.toInt_eq_toNat_cond]
    split
    · omega
    · omega
  rw [packInt, hmod, List.take_left' (length_leBytes _ _)]

/-- Storing replaces as many bytes as are stored. -/
theorem store_middle (xs ys zs bytes : Bytes) {p : Nat} (hp : xs.length = p)
    (hlen : ys.length = bytes.length) :
    store (xs ++ ys ++ zs) p bytes = xs ++ bytes ++ zs := by
  subst hp
  rw [store, List.append_assoc xs ys zs, List.take_left, List.drop_length_add_append, ← hlen,
    List.drop_left]

theorem ProtoMsg.getRaw_eq {m : ProtoMsg} (hlen : m.len = m.prawData.length)
    (hlt : m.prawData.length < 2 ^ 31) (stack : Stack) :
    m.getRaw stack = frame m.serviceId m.commandId m.prawData := by
  have hword : ((m.len + 8) % 2 ^ 32).toNat = m.prawData.length + 8 := by omega
  obtain ⟨buf, beyond, hbuf, hbeyond⟩ := stack
  have hfirst : store buf 0 (leBytes 4 (m.prawData.length + 8) ++ beyond) =
      leBytes 4 (m.prawData.length + 8) ++ beyond ++ buf.drop 8 := by
    have hmiddle := store_middle [] (buf.take 8) (buf.drop 8)
      (leBytes 4 (m.prawData.length + 8) ++ beyond) (p := 0) rfl (by simp [hbuf, hbeyond])
    simpa using hmiddle
  have hsecond : store (leBytes 4 (m.prawData.length + 8) ++ beyond ++ buf.drop 8) 4
      (leBytes 4 m.serviceId.toNat) =
        leBytes 4 (m.prawData.length + 8) ++ leBytes 4 m.serviceId.toNat ++ buf.drop 8 :=
    store_middle _ _ _ _ (length_leBytes _ _) (by simp [hbeyond])
  have hthird : store (leBytes 4 (m.prawData.length + 8) ++ leBytes 4 m.serviceId.toNat ++
      buf.drop 8) 8 (leBytes 4 m.commandId.toNat) =
        leBytes 4 (m.prawData.length + 8) ++ leBytes 4 m.serviceId.toNat ++
          leBytes 4 m.commandId.toNat := by
    have hmiddle := store_middle
      (leBytes 4 (m.prawData.length + 8) ++ leBytes 4 m.serviceId.toNat) (buf.drop 8) []
      (leBytes 4 m.commandId.toNat) (p := 8) (by simp) (by simp [hbuf])
    simpa using hmiddle
  simp only [getRaw, packInt_eight _ hbeyond, packInt_id, hword]
  rw [hfirst, hsecond, hthird, frame, data]
  simp only [List.append_assoc]

theorem write_make (serviceId commandId : BitVec 32) (s : Bytes) :
    (ProtoMsg.make serviceId commandId).write s =
      { serviceId := serviceId, commandId := commandId, len := s.length, prawData := s
        hasWriteSize := s.length } := by
  simp [ProtoMsg.write, ProtoMsg.make, ProtoMsg.resetLen, Msg.write]

theorem readInt_id (id : BitVec 32) (zs : Bytes) :
    readInt (leBytes 4 id.toNat ++ zs) = id.toInt := by
  rw [readInt_append (by simp), readInt, List.take_of_length_le (by simp),
    ofLe_leBytes (by simpa using id.isLt), int32_toNat]

theorem ProtoMsg.length_data (serviceId commandId : BitVec 32) (payload : Bytes) :
    (data serviceId commandId payload).length = payload.length + 8 := by
  simp [data]
  omega

/-- `read_ids` reads back what was written, unless nothing follows the ids. -/
theorem ProtoMsg.readIds_data (serviceId commandId : BitVec 32) (payload : Bytes) :
    readIds (data serviceId commandId payload) =
      if payload = [] then .error .readIds
      else .ok (serviceId.toInt, commandId.toInt, payload) := by
  have hlength := length_data serviceId commandId payload
  have hids : readInt (data serviceId commandId payload) = serviceId.toInt ∧
      readInt ((data serviceId commandId payload).drop 4) = commandId.toInt ∧
      (data serviceId commandId payload).drop 8 = payload := by
    refine ⟨?_, ?_, ?_⟩
    · rw [data, List.append_assoc, readInt_id]
    · rw [data, List.append_assoc, List.drop_left' (length_leBytes _ _), readInt_id]
    · rw [data, List.drop_left' (by simp)]
  rw [readIds, hlength, hids.1, hids.2.1, hids.2.2]
  by_cases hnil : payload = []
  · rw [if_pos hnil, if_neg (by simp [hnil])]
  · have hpos := List.length_pos_of_ne_nil hnil
    rw [if_neg hnil, if_pos (by omega)]

/-- **The round trip of a message.** For all ids and every payload, whatever
`pack_int` copies from beyond its local variable, `get_raw` begins with the
length of what follows it; and a `Msg` that is made ready for that length and
given what follows is complete, and `read_ids` takes the same ids and payload
out of it. -/
theorem ProtoMsg.getRaw_readIds (serviceId commandId : BitVec 32) {payload : Bytes}
    (hne : payload ≠ []) (hlt : payload.length + 8 < 2 ^ 31) (stack : Stack) (m : Msg) :
    let raw := ((make serviceId commandId).write payload).getRaw stack
    raw.take 4 = leBytes 4 (payload.length + 8) ∧ (raw.drop 4).length = payload.length + 8 ∧
      ∃ m', m.tryWrite (readInt raw) = .ok m' ∧
        (m'.write (raw.drop 4)).getRemainLen = 0 ∧
        readIds (m'.write (raw.drop 4)).prawData =
          .ok (serviceId.toInt, commandId.toInt, payload) := by
  have hraw : ((make serviceId commandId).write payload).getRaw stack =
      leBytes 4 (payload.length + 8) ++ data serviceId commandId payload := by
    rw [write_make]
    exact getRaw_eq rfl (by dsimp only; omega) stack
  have hdrop : (leBytes 4 (payload.length + 8) ++ data serviceId commandId payload).drop 4 =
      data serviceId commandId payload := List.drop_left' (length_leBytes _ _)
  have hlength := length_data serviceId commandId payload
  have hread := readIds_data serviceId commandId payload
  rw [if_neg hne] at hread
  simp only [hraw, hdrop, readInt_leBytes hlt]
  refine ⟨List.take_left' (length_leBytes _ _), hlength, ?_⟩
  refine ⟨_, if_pos (by omega), ?_, ?_⟩
  · simp only [Msg.write, Msg.getRemainLen, hlength]
    omega
  · simpa only [Msg.write, List.nil_append] using hread

/-- The theorem at negative ids. -/
theorem ProtoMsg.getRaw_readIds_negative :
    let raw := ((make (-1) (-2)).write [7]).getRaw
      ⟨List.replicate 12 0xCC, List.replicate 4 0xDD, rfl, rfl⟩
    raw.take 4 = leBytes 4 9 ∧ (raw.drop 4).length = 9 ∧
      ∃ m', ({} : Msg).tryWrite (readInt raw) = .ok m' ∧
        (m'.write (raw.drop 4)).getRemainLen = 0 ∧
        readIds (m'.write (raw.drop 4)).prawData =
          .ok ((-1 : BitVec 32).toInt, (-2 : BitVec 32).toInt, [7]) :=
  getRaw_readIds (-1) (-2) (by decide) (by decide) _ {}

end MixServer.Server
