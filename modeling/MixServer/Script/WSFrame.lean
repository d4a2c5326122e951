import Mathlib.Data.List.Basic
import MixServer.Lib.Bytes

/-!
`WSFrame` of `script/httphandle.py`: WebSocket frames, written by
`make_frame_data` and read by the resumable `on_read`.

A Python exception leaves the object as it was when it was raised and is printed
by the caller, so a call always returns the object and how the call ended.
-/

namespace MixServer.Script

open Lib

/-! ### Python's helpers -/

/-- `struct.pack` of one unsigned field of `w` bytes, big-endian. -/
def structPack (w n : Nat) : Option Bytes := if n < 256 ^ w then some (beBytes w n) else none

/-- `struct.unpack` of one unsigned field of `w` bytes from `buf[:w]`. -/
def structUnpack (w : Nat) (buf : Bytes) : Option Nat :=
  if w ≤ buf.length then some (ofBe (buf.take w)) else none

/-- `ws_unmask`; a key that is too short for the data raises `IndexError`. -/
def wsUnmask (maskCodes data : Bytes) : Option Bytes :=
  if maskCodes = [] then some data
  else data.zipIdx.mapM fun d => maskCodes[d.2 % 4]?.map (d.1 ^^^ ·)

namespace WSFrame

/-- The fields of the header dictionary. -/
structure Header where
  FIN : Nat
  RSV1 : Nat
  RSV2 : Nat
  RSV3 : Nat
  opcode : Nat
  mask : Nat
  len1 : Nat
deriving DecidableEq, Repr

/-- The bits of the first two bytes of a frame. -/
def Header.ofBytes (mark len : UInt8) : Header where
  FIN := (mark.toNat &&& 0x80) >>> 7
  RSV1 := (mark.toNat &&& 0x40) >>> 6
  RSV2 := (mark.toNat &&& 0x20) >>> 5
  RSV3 := (mark.toNat &&& 0x10) >>> 4
  opcode := mark.toNat &&& 0x0F
  mask := (len.toNat &&& 0x80) >>> 7
  len1 := len.toNat &&& 0x7F

/-- The width of the extended length field, if there is one. -/
def Header.lenBytes (h : Header) : Option Nat :=
  if h.len1 = 126 then some 2 else if h.len1 = 127 then some 8 else none

inductive Mode where
  | text
  | bin
deriving DecidableEq, Repr

end WSFrame

/-- A `WSFrame` object. -/
structure WSFrame where
  header : Option WSFrame.Header := none
  maskCodes : Bytes := []
  buf : Bytes := []
  remainLen : Int := 2
  dataLen : Option Nat := none
  payload : Bytes := []
  readingHead : Bool := true
  mode : Option WSFrame.Mode := none
deriving DecidableEq, Repr

namespace WSFrame

/-! ### Writing -/

/-- `make_frame_data`: a text frame, masked if a key is given. -/
def makeFrameData (msg maskCodes : Bytes) : Option Bytes := do
  let len1 := if msg.length > 65535 then 127 else if msg.length > 125 then 126 else msg.length
  let FIN := 1
  let RSV1 := 0
  let RSV2 := 0
  let RSV3 := 0
  let opcode := 0x1
  let mark := (0x80 &&& (FIN <<< 7)) ||| (0x40 &&& (RSV1 <<< 6)) ||| (0x40 &&& (RSV2 <<< 5)) |||
    (0x40 &&& (RSV3 <<< 4)) ||| (0x0F &&& opcode)
  let len1' := if maskCodes = [] then len1 else 0x80 ||| len1
  let header := (← structPack 1 mark) ++ (← structPack 1 len1')
  let len2 ← (if msg.length > 65535 then structPack 8 msg.length
    else if msg.length > 125 then structPack 2 msg.length else some [])
  let mask ← (match maskCodes with
    | [] => some []
    | a :: b :: c :: d :: _ => structPack 4
        ((a.toNat <<< 24) ||| (b.toNat <<< 16) ||| (c.toNat <<< 8) ||| d.toNat)
    | _ => none)
  let data ← wsUnmask maskCodes msg
  return header ++ len2 ++ mask ++ data

/-! ### Reading -/

/-- How a call of `on_read` ends: it returns, calls a method of its handle with
its last statement, or raises an exception. -/
inductive Outcome where
  | returned
  | handleFrame (data : Bytes)
  | handleClose
  | raised
deriving DecidableEq, Repr

/-- The loop that takes the octets of the mask, before they are reversed: a
32-bit number has at most four. -/
def maskOctets : Nat → Nat → Bytes
  | 0, _ => []
  | turns + 1, mask =>
      if mask = 0 then [] else UInt8.ofNat (mask &&& 0xFF) :: maskOctets turns (mask >>> 8)

/-- The fields that the first two bytes set. -/
def setHeader (f : WSFrame) (h : Header) : WSFrame :=
  { f with
    header := some h
    remainLen := (h.lenBytes.getD h.len1 : Nat) + (if h.mask = 0 then 0 else 4)
    dataLen := if h.lenBytes.isSome then f.dataLen else some h.len1 }

def setMode (f : WSFrame) (h : Header) : WSFrame :=
  if h.opcode = 0x1 then { f with mode := some .text }
  else if h.opcode = 0x2 then { f with mode := some .bin }
  else f

/-- The last stage: payload bytes. `buf` stays what it was. -/
def readPayload (f : WSFrame) (s : Bytes) : WSFrame × Outcome :=
  let s := if f.buf = [] then s else f.buf ++ s
  let f := { f with payload := f.payload ++ s, remainLen := f.remainLen - s.length }
  if f.remainLen = 0 then
    match wsUnmask f.maskCodes f.payload with
    | some data => (f, .handleFrame data)
    | none => (f, .raised)
  else
    (f, .returned)

/-- `on_read`, with a bound on the depth of its recursion. -/
def onReadN : Nat → WSFrame → Bytes → WSFrame × Outcome
  | 0, f, _ => (f, .returned)
  | depth + 1, f, s =>
      let f := if f.readingHead then { f with buf := f.buf ++ s } else f
      if f.readingHead = true ∧ f.buf.length < f.remainLen then (f, .returned)
      else
        match f.header, f.dataLen with
        | none, _ =>
            match f.buf with
            | mark :: len :: buf =>
                let h := Header.ofBytes mark len
                let f := { f.setHeader h with buf := buf }
                if h.opcode = 0x8 then (f, .handleClose)
                else
                  let f := f.setMode h
                  if 0 < f.buf.length then onReadN depth f [] else (f, .returned)
            | _ => (f, .raised)
        | some h, none =>
            match h.lenBytes.bind fun w => (structUnpack w f.buf).map (w, ·) with
            | some (w, len2) =>
                let f :=
                  { f with
                    buf := f.buf.drop w
                    dataLen := some len2
                    remainLen := f.remainLen + (len2 - w)
                    readingHead := if h.mask = 0 then false else f.readingHead }
                if 0 < f.buf.length then onReadN depth f [] else (f, .returned)
            | none => (f, .raised)
        | some h, some _ =>
            if h.mask ≠ 0 ∧ f.maskCodes = [] then
              match structUnpack 4 f.buf with
              | some mask =>
                  let f :=
                    { f with
                      readingHead := false
                      maskCodes := (maskOctets 4 mask).reverse
                      buf := f.buf.drop 4
                      remainLen := f.remainLen - 4 }
                  if 0 < f.buf.length then onReadN depth f [] else (f, .returned)
              | none => (f, .raised)
            else
              f.readPayload s

/-- `on_read`: every recursive call has taken at least two bytes off `buf`. -/
def onRead (f : WSFrame) (s : Bytes) : WSFrame × Outcome :=
  onReadN (f.buf.length + s.length + 1) f s

end WSFrame

/-! ### The handle -/

/-- A call that a `WSFrame` makes of its handle. -/
inductive WSCall where
  | handleFrame (data : Bytes)
  | handleClose
deriving DecidableEq, Repr

/-- A `WSHandle`: the frame being read, the calls made of the handle, and what it
has sent. -/
structure WSHandle where
  curFrame : Option WSFrame := none
  calls : List WSCall := []
  sent : List Bytes := []
deriving DecidableEq, Repr

namespace WSHandle

/-- `handle_frame`: the frame is done, and an echo is sent. -/
def handleFrame (h : WSHandle) (data : Bytes) : WSHandle where
  curFrame := none
  calls := h.calls ++ [.handleFrame data]
  sent := h.sent ++ (WSFrame.makeFrameData ("echo:".toUTF8.toList ++ data) []).toList

/-- `handle_message`. -/
def handleMessage (h : WSHandle) (s : Bytes) : WSHandle :=
  let (f, outcome) := (h.curFrame.getD {}).onRead s
  let h := { h with curFrame := some f }
  match outcome with
  | .handleFrame data => h.handleFrame data
  | .handleClose => { h with calls := h.calls ++ [.handleClose] }
  | .returned | .raised => h

end WSHandle

end MixServer.Script
