import MixServer.Lib.Bytes
import MixServer.Lib.Splitter

/-!
What `Buffer` (`include/buffer.hpp`) is for: a first-in first-out queue of
bytes. The readable bytes of a buffer are the queue; everything above the
buffer (streams, servers, the client) is modelled over this view, and
`MixServer.Net.Buffer` relates it to the real memory.

* `History` is the abstract account of a buffer's life: all bytes ever written
  and how many of them have been consumed.
* `readInt` and `findCRLF` are the two parsers the servers run over the
  readable bytes.
* `crlfLines` is the splitting of a byte stream at its CR LF pairs.
-/

namespace MixServer.Net

open Lib

/-- Everything written so far and the length of the prefix consumed so far. -/
structure History where
  written : Bytes
  consumed : Nat
deriving DecidableEq

/-- The bytes written and not yet consumed, oldest first. -/
def History.unread (h : History) : Bytes := h.written.drop h.consumed

/-- Nothing written yet. -/
def History.empty : History := ⟨[], 0⟩

def History.write (h : History) (buf : Bytes) : History := { h with written := h.written ++ buf }

def History.consume (h : History) (n : Nat) : History := { h with consumed := h.consumed + n }

/-- `clear()` and `read()` drop everything. -/
def History.consumeAll (h : History) : History := { h with consumed := h.written.length }

/-- Only bytes that were written have been consumed. -/
def History.Wf (h : History) : Prop := h.consumed ≤ h.written.length

theorem History.length_unread (h : History) :
    h.unread.length = h.written.length - h.consumed := by
  simp [unread]

theorem History.unread_write {h : History} (hw : h.Wf) (buf : Bytes) :
    (h.write buf).unread = h.unread ++ buf := by
  simp [unread, write, List.drop_append_of_le_length hw]

theorem History.unread_consume (h : History) (n : Nat) :
    (h.consume n).unread = h.unread.drop n := by
  simp [unread, consume, List.drop_drop, Nat.add_comm]

@[simp] theorem History.unread_consumeAll (h : History) : h.consumeAll.unread = [] := by
  simp [unread, consumeAll]

/-- With nothing unread, everything has been consumed already. -/
theorem History.consumeAll_of_unread {h : History} (hw : h.Wf) (hunread : h.unread = []) :
    h.consumeAll = h := by
  have hlen := h.length_unread
  rw [hunread, List.length_nil] at hlen
  have hconsumed : h.written.length = h.consumed := by
    simp only [Wf] at hw
    omega
  rw [consumeAll, hconsumed]

/-! ### Reading the queue -/

/-- `Buffer::read_int`: four bytes, least significant first, as an `int`. -/
def readInt (q : Bytes) : Int := int32 (ofLe (q.take 4))

/-- `Buffer::find_CRLF`: the index of the first CR LF pair. -/
def findCRLF : Bytes → Option Nat
  | [] => none
  | [_] => none
  | a :: b :: rest =>
      if a = 13 ∧ b = 10 then some 0 else (findCRLF (b :: rest)).map (· + 1)

theorem findCRLF_lt {q : Bytes} {i : Nat} (h : findCRLF q = some i) : i + 2 ≤ q.length := by
  induction q using findCRLF.induct generalizing i with
  | case1 => simp [findCRLF] at h
  | case2 b => simp [findCRLF] at h
  | case3 a b rest hab =>
      simp only [findCRLF, if_pos hab, Option.some.injEq] at h
      simp only [List.length_cons]
      omega
  | case4 a b rest hab ih =>
      simp only [findCRLF, if_neg hab, Option.map_eq_some_iff] at h
      obtain ⟨j, hj, rfl⟩ := h
      have := ih hj
      simp only [List.length_cons] at this ⊢
      omega

/-- A pair that is already there stays the first one when bytes arrive. -/
theorem findCRLF_append {q : Bytes} {i : Nat} (zs : Bytes) (h : findCRLF q = some i) :
    findCRLF (q ++ zs) = some i := by
  induction q using findCRLF.induct generalizing i with
  | case1 => simp [findCRLF] at h
  | case2 b => simp [findCRLF] at h
  | case3 a b rest hab =>
      simp only [findCRLF, if_pos hab] at h
      simpa only [List.cons_append, findCRLF, if_pos hab] using h
  | case4 a b rest hab ih =>
      simp only [findCRLF, if_neg hab, Option.map_eq_some_iff] at h
      obtain ⟨j, hj, rfl⟩ := h
      simp only [List.cons_append, findCRLF, if_neg hab]
      rw [← List.cons_append, ih hj]
      rfl

/-- The lines of a byte stream: the pieces that end at its leftmost CR LF
pairs, without the pairs. -/
def crlfLines : Splitter UInt8 Bytes where
  next q := (findCRLF q).map fun i => (q.take i, q.drop (i + 2))
  shrinks h := by
    obtain ⟨i, hi, heq⟩ := Option.map_eq_some_iff.mp h
    cases heq
    have := findCRLF_lt hi
    simp only [List.length_drop]
    omega
  stable zs h := by
    obtain ⟨i, hi, heq⟩ := Option.map_eq_some_iff.mp h
    cases heq
    have := findCRLF_lt hi
    rw [findCRLF_append zs hi, Option.map_some, List.take_append_of_le_length (by omega),
      List.drop_append_of_le_length (by omega)]

end MixServer.Net
