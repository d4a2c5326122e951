import MixServer.Server.LifeCycle

/-!
`Acceptor::handle_read` and what `accept` and `getpeername` may answer.

Both answers are asserted (`Socket::accept`, `Socket::Socket(fd)`), so that an
`accept` that fails, or a peer that has reset the connection before it is looked
at, ends the process. With a new descriptor and a peer the acceptor adds one
stream, under an id that has never been used.
-/

namespace MixServer.Server

open Lib Net
open Function (update)

variable {ε : Type} {A : ε → Nat → Prop} {w w' : TcpServer ε}

/-- `TcpServer` itself: its `handle_read` only logs. -/
def plain : ServerClass ε where
  newConnect := TcpServer.newConnect
  handleRead _ := .ok
  closeConnect := TcpServer.closeConnect

/-- `w'` has one stream more than `w`, on descriptor `fd` and under a fresh id, in `streams`
and in both tables of the loop. -/
structure AddsStream (fd : Nat) (w w' : TcpServer ε) : Prop where
  fresh : ∀ a, a ∈ w.streams ∨ 0 < a ∧ a ≤ w.maxConnectId → a < w'.maxConnectId
  streams : w'.streams = insert w'.maxConnectId w.streams
  handles : w'.ploop.handles = update w.ploop.handles fd (some (.stream w'.maxConnectId))
  select_ : w'.ploop.select_ = update w.ploop.select_ fd (some { read := true, error := true })
  heap : ∀ a, a ≠ w'.maxConnectId → w'.heap a = w.heap a

/-- Nothing has changed. -/
structure Unchanged (w w' : TcpServer ε) : Prop where
  streams : w'.streams = w.streams
  ploop : w'.ploop = w.ploop

/-- A server with a script accepts as `TcpServer` does, and then calls its script. -/
theorem Acceptor.handleRead_scripted (script : Script) (ret : AcceptRet) (w : TcpServer Unit) :
    Acceptor.handleRead (scripted script) ret w =
      (Acceptor.handleRead plain ret w >>= fun w => script.call TcpServer.closeConnect
        { w with senders := update w.senders w.maxConnectId (some {}) }) := by
  cases ret with
  | error => rfl
  | conn fd peer => rfl

/-- What the two answers make of an `Acceptor::handle_read`. -/
theorem Acceptor.handleRead_plain (ret : AcceptRet) (w : TcpServer ε) :
    Acceptor.handleRead plain ret w =
      match ret with
      | .error => .error ⟨.accept, w.trace⟩
      | .conn fd peer =>
          if peer then
            if (w.ploop.select_ fd).isSome then .error ⟨.addHandle, w.trace⟩
            else .ok (w.connected fd)
          else .error ⟨.getpeername, w.trace⟩ := by
  cases ret with
  | error => rfl
  | conn fd peer => exact TcpServer.newConnect_eq w fd peer

/-- The state after a connection has been accepted. -/
theorem Inv.addsStream (h : Inv A none w) (fd : Nat) : AddsStream fd w (w.connected fd) where
  fresh a ha := by
    rw [TcpServer.connected_maxConnectId]
    rcases ha with hmem | ⟨-, hle⟩
    · exact Nat.lt_succ_of_le (h.numbered a hmem).2
    · exact Nat.lt_succ_of_le hle
  streams := rfl
  handles := rfl
  select_ := rfl
  heap a hne := Function.update_of_ne hne _ _

theorem Inv.handleRead_accepts_iff (h : Inv A none w) (ret : AcceptRet) :
    (∃ w', Acceptor.handleRead plain ret w = .ok w' ∧
      ((∃ fd, AddsStream fd w w') ∨ Unchanged w w')) ↔
    ∃ fd, ret = .conn fd true ∧ w.ploop.select_ fd = none := by
  rw [Acceptor.handleRead_plain]
  constructor
  · rintro ⟨w', hok, -⟩
    cases ret with
    | error => cases hok
    | conn fd peer =>
      cases peer with
      | false => cases hok
      | true =>
        cases hknown : w.ploop.select_ fd with
        | some e => simp [hknown] at hok
        | none => exact ⟨fd, rfl, hknown⟩
  · rintro ⟨fd, rfl, hnone⟩
    refine ⟨w.connected fd, ?_, .inl ⟨fd, h.addsStream fd⟩⟩
    simp [hnone]

/-- In every reachable state of a server, and whatever `accept` and `getpeername` answer:
the acceptor fails no assertion and adds exactly one stream or changes nothing, if and only
if `accept` returns a descriptor that is not registered yet and `getpeername` finds its
peer. -/
theorem accept_iff (script : Script) {fd : Nat} {es : List Event} {w : TcpServer Unit}
    (hrun : exec (step (scripted script)) (TcpServer.bind fd ()) es = .ok w) (ret : AcceptRet) :
    (∃ w', Acceptor.handleRead plain ret w = .ok w' ∧
      ((∃ cfd, AddsStream cfd w w') ∨ Unchanged w w')) ↔
    ∃ cfd, ret = .conn cfd true ∧ w.ploop.select_ cfd = none := by
  have hinv := (exec_ensures (fun _ e h => scripted_step script h e)
    (Inv.bind fd () : Inv always none _) es).of_ok hrun
  exact hinv.handleRead_accepts_iff ret

/-- Two connections of which the first has ended: its descriptor is given out again. -/
theorem accept_iff_reused :
    ∃ w, exec (step (scripted fun _ => [])) (TcpServer.bind 3 ())
        [.select 3 { read := true } ⟨⟨[], .eof⟩, [], .conn 4 true⟩,
          .select 3 { read := true } ⟨⟨[], .eof⟩, [], .conn 5 true⟩,
          .select 4 { read := true } ⟨⟨[], .eof⟩, [], .error⟩] = .ok w ∧ w.streams = {2} ∧
      ∃ w', Acceptor.handleRead plain (.conn 4 true) w = .ok w' ∧
        ((∃ cfd, AddsStream cfd w w') ∨ Unchanged w w') := by
  have hrun : exec (step (scripted fun _ => [])) (TcpServer.bind 3 ())
      [.select 3 { read := true } ⟨⟨[], .eof⟩, [], .conn 4 true⟩,
        .select 3 { read := true } ⟨⟨[], .eof⟩, [], .conn 5 true⟩,
        .select 4 { read := true } ⟨⟨[], .eof⟩, [], .error⟩] = .ok _ := rfl
  refine ⟨_, hrun, by decide, ?_⟩
  exact (accept_iff _ hrun (.conn 4 true)).mpr ⟨4, rfl, rfl⟩

/-- All descriptors are in use, and somebody connects. -/
theorem accept_fails :
    ¬ ∀ (script : Script) (fd : Nat) (es : List Event) (w : TcpServer Unit) (ret : AcceptRet),
      exec (step (scripted script)) (TcpServer.bind fd ()) es = .ok w →
      ∃ w', Acceptor.handleRead plain ret w = .ok w' ∧
        ((∃ cfd, AddsStream cfd w w') ∨ Unchanged w w') := by
  intro h
  obtain ⟨w', hok, -⟩ := h (fun _ => []) 3 [] (TcpServer.bind 3 ()) .error rfl
  cases hok

end MixServer.Server
