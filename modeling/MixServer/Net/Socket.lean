import MixServer.Lib.Run
import MixServer.Net.ByteQueue

/-!
The two transfer loops of `net/socket.cpp`, over the readable bytes of their
buffer.

The kernel is the list of answers it gives to the successive `::recv` or
`::send` calls. `Outbox` puts `Socket::send` between its callers: bytes are
queued by `TcpStream::send` and leave by `handle_write`. `outbox_exact_iff` says
when the wire carries what was queued: every `::send` of one call starts from
the same source pointer, so it does iff each later chunk of a call happens to
repeat the bytes at the front of the buffer.
-/

namespace MixServer.Net

open Lib

/-- The `errno` of a failed call. -/
inductive Errno where
  | EAGAIN
  | EWOULDBLOCK
  | other (code : Nat)
deriving DecidableEq, Repr

/-- `errno!=EAGAIN && errno!=EWOULDBLOCK`. -/
def Errno.fatal : Errno → Bool
  | .EAGAIN | .EWOULDBLOCK => false
  | .other _ => true

namespace Socket

/-- `BUFFER_SIZE` of `socket.hpp`. -/
def BUFFER_SIZE : Nat := 4096

/-! ### `Socket::recv` -/

/-- How the receive loop ends: `::recv` returns 0, or fails. -/
inductive RecvEnd where
  | eof
  | error (e : Errno)
deriving DecidableEq, Repr

/-- `n==0 || (n<0 && errno!=EAGAIN && errno!=EWOULDBLOCK)`: the connection is
over for the reader. -/
def RecvEnd.ends : RecvEnd → Bool
  | .eof => true
  | .error e => e.fatal

/-- The answers to the `::recv` calls of one loop: some chunks, then the end. -/
structure RecvRets where
  chunks : List Bytes
  last : RecvEnd
deriving DecidableEq, Repr

/-- `Socket::recv(pbuf)`: appends every chunk and returns only the last code. -/
def recv (pbuf : Bytes) (rets : RecvRets) : Bytes × RecvEnd :=
  (rets.chunks.foldl (· ++ ·) pbuf, rets.last)

@[simp] theorem recv_fst (pbuf : Bytes) (rets : RecvRets) :
    (recv pbuf rets).1 = pbuf ++ rets.chunks.flatten := by
  obtain ⟨chunks, last⟩ := rets
  simp only [recv]
  induction chunks generalizing pbuf with
  | nil => simp
  | cons c cs ih => rw [List.foldl_cons, ih, List.flatten_cons, List.append_assoc]

@[simp] theorem recv_snd (pbuf : Bytes) (rets : RecvRets) : (recv pbuf rets).2 = rets.last := rfl

/-! ### `Socket::send` -/

/-- The kernel's answer to one `::send`: room for `room + 1` bytes, or an error. -/
inductive SendRet where
  | accepted (room : Nat)
  | error (e : Errno)
deriving DecidableEq, Repr

/-- The count `::send` returns when at most `BUFFER_SIZE` of `size` bytes are
offered: at least one byte and at most what was offered. -/
def taken (room size : Nat) : Nat := min (room + 1) (min BUFFER_SIZE size)

theorem taken_le (room size : Nat) : taken room size ≤ size := by
  unfold taken
  omega

/-- The outcome of `Socket::send`: the error it returned, if any, what is left
readable, and the bytes the kernel accepted. -/
structure SendOut where
  error : Option Errno
  pbuf : Bytes
  wire : Bytes
deriving DecidableEq, Repr

/-- The loop of `Socket::send`. The source pointer `buf` is taken once, before
the loop; `size` and the buffer's read index advance. When no answer is listed
any more the call would block. -/
def sendLoop (buf : Bytes) : List SendRet → Nat → Bytes → SendOut
  | _, 0, pbuf => ⟨none, pbuf, []⟩
  | [], _ + 1, pbuf => ⟨some .EAGAIN, pbuf, []⟩
  | .error e :: _, _ + 1, pbuf => ⟨some e, pbuf, []⟩
  | .accepted room :: rets, size + 1, pbuf =>
      let n := taken room (size + 1)
      let out := sendLoop buf rets (size + 1 - n) (pbuf.drop n)
      { out with wire := buf.take n ++ out.wire }

/-- `Socket::send(pbuf)`. -/
def send (pbuf : Bytes) (rets : List SendRet) : SendOut :=
  sendLoop pbuf rets pbuf.length pbuf

/-- Whether the answers accept `size` bytes before the first error. -/
def drains : List SendRet → Nat → Bool
  | _, 0 => true
  | [], _ + 1 => false
  | .error _ :: _, _ + 1 => false
  | .accepted room :: rets, size + 1 => drains rets (size + 1 - taken room (size + 1))

/-- The buffer is sent out completely exactly when the answers accept it all,
and `::send` reports an error exactly when they do not. -/
theorem sendLoop_pbuf (buf : Bytes) (rets : List SendRet) {size : Nat} {pbuf : Bytes}
    (hsize : size = pbuf.length) :
    ((sendLoop buf rets size pbuf).pbuf = [] ↔ drains rets size = true) ∧
      ((sendLoop buf rets size pbuf).error = none ↔ drains rets size = true) := by
  induction rets generalizing size pbuf with
  | nil =>
    cases size with
    | zero => simp [sendLoop, drains, List.length_eq_zero_iff.mp hsize.symm]
    | succ size =>
      have : pbuf ≠ [] := by
        rintro rfl
        simp at hsize
      simp [sendLoop, drains, this]
  | cons ret rets ih =>
    cases size with
    | zero => simp [sendLoop, drains, List.length_eq_zero_iff.mp hsize.symm]
    | succ size =>
      cases ret with
      | error e =>
        have : pbuf ≠ [] := by
          rintro rfl
          simp at hsize
        simp [sendLoop, drains, this]
      | accepted room =>
        simp only [sendLoop, drains]
        exact ih (by rw [List.length_drop, ← hsize])

theorem send_pbuf_eq_nil (pbuf : Bytes) (rets : List SendRet) :
    (send pbuf rets).pbuf = [] ↔ drains rets pbuf.length = true :=
  (sendLoop_pbuf pbuf rets rfl).1

theorem send_error_eq_none (pbuf : Bytes) (rets : List SendRet) :
    (send pbuf rets).error = none ↔ drains rets pbuf.length = true :=
  (sendLoop_pbuf pbuf rets rfl).2

theorem send_nil_pbuf (rets : List SendRet) : (send [] rets).pbuf = [] :=
  (send_pbuf_eq_nil [] rets).mpr (by cases rets <;> rfl)

/-- When `::send` reports an error, bytes are left. -/
theorem send_pbuf_ne_nil {pbuf : Bytes} {rets : List SendRet} {e : Errno}
    (h : (send pbuf rets).error = some e) : (send pbuf rets).pbuf ≠ [] := by
  intro hnil
  rw [(send_error_eq_none _ _).mpr ((send_pbuf_eq_nil _ _).mp hnil)] at h
  cases h

/-! ### What reaches the wire -/

/-- From offset `k` of the source on, every chunk the kernel accepts repeats the
bytes at the front of the source. -/
def Repeats (buf : Bytes) : Nat → List SendRet → Prop
  | _, [] => True
  | _, .error _ :: _ => True
  | k, .accepted room :: rets =>
      k < buf.length →
        (buf.drop k).take (taken room (buf.length - k)) = buf.take (taken room (buf.length - k)) ∧
          Repeats buf (k + taken room (buf.length - k)) rets

instance Repeats.decidable (buf : Bytes) : ∀ k rets, Decidable (Repeats buf k rets)
  | _, [] | _, .error _ :: _ => .isTrue trivial
  | k, .accepted room :: rets =>
      have := Repeats.decidable buf (k + taken room (buf.length - k)) rets
      inferInstanceAs (Decidable (_ → _ ∧ _))

/-- At offset `k` of the source the loop puts the right bytes on the wire iff
the remaining chunks repeat its front. -/
theorem sendLoop_exact_iff (buf : Bytes) (rets : List SendRet) {k : Nat} (hk : k ≤ buf.length) :
    (sendLoop buf rets (buf.length - k) (buf.drop k)).wire ++
        (sendLoop buf rets (buf.length - k) (buf.drop k)).pbuf = buf.drop k ↔
      Repeats buf k rets := by
  induction rets generalizing k with
  | nil =>
    cases hsize : buf.length - k with
    | zero => simp [sendLoop, Repeats]
    | succ size => simp [sendLoop, Repeats]
  | cons ret rets ih =>
    cases hsize : buf.length - k with
    | zero =>
      have hnot : ¬ k < buf.length := by omega
      cases ret <;> simp [sendLoop, Repeats, hnot]
    | succ size =>
      cases ret with
      | error e => simp [sendLoop, Repeats]
      | accepted room =>
        have hlt : k < buf.length := by omega
        have htaken := taken_le room (size + 1)
        have hnext : buf.length - (k + taken room (size + 1)) =
            size + 1 - taken room (size + 1) := by
          omega
        have hih := ih (k := k + taken room (size + 1)) (by omega)
        rw [hnext, ← List.drop_drop] at hih
        simp only [sendLoop, Repeats, hlt, hsize, forall_const, List.append_assoc]
        rw [← hih]
        -- both sides start with `taken` bytes, so they agree piece by piece
        conv_lhs => rhs; rw [← List.take_append_drop (taken room (size + 1)) (buf.drop k)]
        have hlen : (buf.take (taken room (size + 1))).length =
            ((buf.drop k).take (taken room (size + 1))).length := by
          simp only [List.length_take, List.length_drop]
          omega
        constructor
        · intro h
          obtain ⟨hchunk, hrest⟩ := List.append_inj h hlen
          exact ⟨hchunk.symm, hrest⟩
        · rintro ⟨hchunk, hrest⟩
          rw [hchunk, hrest]

theorem send_exact_iff (buf : Bytes) (rets : List SendRet) :
    (send buf rets).wire ++ (send buf rets).pbuf = buf ↔ Repeats buf 0 rets := by
  simpa [send] using sendLoop_exact_iff buf rets (Nat.zero_le _)

/-! ### What is returned -/

/-- The `::send` fails for good. -/
def failsForGood : SendRet → Bool
  | .accepted _ => false
  | .error e => e.fatal

/-- No `::send` fails for good. -/
def Calm (rets : List SendRet) : Prop := ∀ ret ∈ rets, failsForGood ret = false

instance (rets : List SendRet) : Decidable (Calm rets) :=
  inferInstanceAs (Decidable (∀ _ ∈ _, _))

theorem sendLoop_error (buf : Bytes) (rets : List SendRet) (size : Nat) (pbuf : Bytes)
    {e : Errno} (he : (sendLoop buf rets size pbuf).error = some e) :
    e = .EAGAIN ∨ .error e ∈ rets := by
  induction rets generalizing size pbuf with
  | nil =>
    cases size with
    | zero => cases he
    | succ size =>
      cases he
      exact .inl rfl
  | cons ret rets ih =>
    cases size with
    | zero => cases he
    | succ size =>
      cases ret with
      | error e' =>
        cases he
        exact .inr List.mem_cons_self
      | accepted room => exact (ih _ _ he).imp id (List.mem_cons_of_mem _)

theorem Calm.not_fatal {rets : List SendRet} (h : Calm rets) {pbuf : Bytes} {e : Errno}
    (he : (send pbuf rets).error = some e) : e.fatal = false := by
  rcases sendLoop_error _ _ _ _ he with rfl | hmem
  · rfl
  · exact h _ hmem

end Socket

/-! ### The write side of a connection -/

/-- The write buffer of a connection, next to everything queued on it and
everything the kernel has accepted from it. -/
structure Outbox where
  pwriteBuf : Bytes
  wire : Bytes
  queued : Bytes
deriving DecidableEq, Repr

/-- The calls that touch the write buffer. -/
inductive OutCall where
  | send (s : Bytes)
  | handleWrite (rets : List Socket.SendRet)
deriving DecidableEq, Repr

namespace Outbox

/-- A connection whose write buffer holds `pending`. -/
def init (pending : Bytes) : Outbox := ⟨pending, [], pending⟩

/-- `TcpStream::send` appends; `TcpStream::handle_write` calls `Socket::send`. -/
def step (o : Outbox) : OutCall → Except Empty Outbox
  | .send s => .ok { o with pwriteBuf := o.pwriteBuf ++ s, queued := o.queued ++ s }
  | .handleWrite rets =>
      let out := Socket.send o.pwriteBuf rets
      .ok { o with pwriteBuf := out.pbuf, wire := o.wire ++ out.wire }

/-- What is on the wire, followed by what is still readable, is what was
queued: each byte exactly once and in order. -/
def Exact (o : Outbox) : Prop := o.wire ++ o.pwriteBuf = o.queued

/-- Within one `Socket::send`, each accepted chunk repeats the front of the
buffer at its own offset. -/
def Repeats (o : Outbox) : OutCall → Prop
  | .send _ => True
  | .handleWrite rets => Socket.Repeats o.pwriteBuf 0 rets

theorem step_exact_iff {o : Outbox} (h : o.Exact) (c : OutCall) :
    Ensures (o.step c) Exact (fun _ => True) ↔ o.Repeats c := by
  have hqueued : o.wire ++ o.pwriteBuf = o.queued := h
  cases c with
  | send s =>
      refine iff_of_true ?_ trivial
      change o.wire ++ (o.pwriteBuf ++ s) = o.queued ++ s
      rw [← List.append_assoc, hqueued]
  | handleWrite rets =>
      change o.wire ++ (Socket.send o.pwriteBuf rets).wire ++
        (Socket.send o.pwriteBuf rets).pbuf = o.queued ↔ _
      rw [← hqueued, List.append_assoc, List.append_cancel_left_eq]
      exact Socket.send_exact_iff _ _

/-- **What goes on the wire is what was queued**, in every state of a run, iff
no `Socket::send` of the run accepts a later chunk that differs from the bytes
at the front of its buffer. -/
theorem outbox_exact_iff (pending : Bytes) (calls : List OutCall) :
    AllReached step Exact (init pending) calls ↔ Every step Repeats (init pending) calls := by
  refine good_iff_every (I := fun _ => True) (L := fun _ _ => True) ?_ ?_ trivial ?_
    (every_of_forall fun _ _ => trivial)
  · intro o c _ _
    cases o.step c with
    | ok o' => trivial
    | error x => trivial
  · intro o c _ _ exact'
    exact step_exact_iff exact' c
  · change [] ++ pending = pending
    rfl

/-- Three bytes queued; the kernel accepts one, then the other two. -/
theorem short_write_repeats_front :
    ¬ AllReached step Exact (init [97, 98, 99]) [.handleWrite [.accepted 0, .accepted 1]] := by
  intro h
  have last : Exact _ := h _ (List.prefix_refl _) _ rfl
  exact absurd last (by unfold Exact; decide)

end Outbox

end MixServer.Net
