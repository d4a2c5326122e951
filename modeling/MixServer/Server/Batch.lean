import MixServer.Net.Dispatch
import MixServer.Server.TcpServer

/-!
A batch of active descriptors at a `TcpServer`: the steps of the server model,
one for each entry, are the turns of `EventLoop::do_select`.
-/

namespace MixServer.Server

open Lib Net

variable {ε : Type}

/-- The handles of a server, and what `handle_event` of each does: `revents` is
set first. -/
def handlers (C : ServerClass ε) : Handlers (TcpServer ε) HandleRef (Events × Io) Crash where
  handles w := w.ploop.handles
  handleEvent h e w :=
    match h with
    | .acceptor => if e.1.read then Acceptor.handleRead C e.2.accept w else .ok w
    | .stream a =>
        TcpStream.handleEvent C e.2 a (w.modify a fun s => { s with revents := e.1 })

/-- How a stopped dispatch ends the process. -/
def crashOf : Stop (TcpServer ε) Crash → Crash
  | .assertion w => ⟨.doSelect, w.trace⟩
  | .handler x => x

/-- What is left of a dispatch once the calls are forgotten. -/
def outcome (r : Except (Stop (TcpServer ε) Crash × Calls HandleRef (Events × Io))
    (TcpServer ε × Calls HandleRef (Events × Io))) : Except Crash (TcpServer ε) :=
  match r with
  | .ok d => .ok d.1
  | .error x => .error (crashOf x.1)

theorem turn_outcome (C : ServerClass ε) (d : TcpServer ε × Calls HandleRef (Events × Io))
    (e : Nat × Events × Io) :
    outcome ((handlers C).turn d e) = step C d.1 (.select e.1 e.2.1 e.2.2) := by
  have hcall : ∀ h, outcome ((handlers C).call h d e) = (handlers C).handleEvent h e.2 d.1 := by
    intro h
    simp only [Handlers.call]
    cases (handlers C).handleEvent h e.2 d.1 <;> rfl
  simp only [Handlers.turn, step, doSelect]
  have hhandles : (handlers C).handles d.1 e.1 = d.1.ploop.handles e.1 := rfl
  rw [hhandles]
  cases d.1.ploop.handles e.1 with
  | none => rfl
  | some h => cases h <;> exact hcall _

/-- The steps of a batch are one `do_select`. -/
theorem exec_batch (C : ServerClass ε) (d : TcpServer ε × Calls HandleRef (Events × Io))
    (batch : List (Nat × Events × Io)) :
    exec (step C) d.1 (batch.map fun e => .select e.1 e.2.1 e.2.2) =
      outcome (exec (handlers C).turn d batch) := by
  induction batch generalizing d with
  | nil => rfl
  | cons e batch ih =>
    have hturn := turn_outcome C d e
    rw [List.map_cons]
    cases hresult : (handlers C).turn d e with
    | error x =>
      rw [hresult] at hturn
      rw [exec_cons_error hresult, exec_cons_error hturn.symm]
      rfl
    | ok d' =>
      rw [hresult] at hturn
      rw [exec_cons_ok hresult, exec_cons_ok hturn.symm, ih]

/-- The answers of the kernel to a dispatch that only accepts, on `fd`, or finds
nothing to read. -/
def onlyAccepts (fd : Nat) : Io := ⟨⟨[], .error .EWOULDBLOCK⟩, [], .conn fd true⟩

/-- Two connections and a silent script, both active at once. -/
theorem dispatch_iff_quiet :
    ∃ w, exec (step (scripted fun _ => [])) (TcpServer.bind 3 ())
        [.select 3 { read := true } (onlyAccepts 4), .select 3 { read := true } (onlyAccepts 5)] =
          .ok w ∧
      ((handlers (scripted fun _ => [])).doSelect w
          [(4, { read := true }, onlyAccepts 0), (5, { read := true }, onlyAccepts 0)] =
        (handlers (scripted fun _ => [])).skipping w
          [(4, { read := true }, onlyAccepts 0), (5, { read := true }, onlyAccepts 0)] ↔
      Every (handlers (scripted fun _ => [])).turn
        (Handlers.StillRegistered (handlers (scripted fun _ => [])) w.ploop.handles) (w, [])
          [(4, { read := true }, onlyAccepts 0), (5, { read := true }, onlyAccepts 0)]) :=
  ⟨_, rfl, (handlers _).dispatch_iff (by decide)⟩

/-- The script answers a read of connection 1 by closing connection 2, which is
active in the same batch: the assertion of `do_select` fails. -/
theorem dispatch_iff_cross_close :
    ¬ ∀ (script : Script) (es : List Event) (w : TcpServer Unit),
      exec (step (scripted script)) (TcpServer.bind 3 ()) es = .ok w →
      ∀ batch : List (Nat × Events × Io), (∀ e ∈ batch, (w.ploop.handles e.1).isSome) →
        (handlers (scripted script)).doSelect w batch =
          (handlers (scripted script)).skipping w batch := by
  intro h
  have hrun := h (fun tr => if Obs.handleRead 1 ∈ tr then [.close 2] else [])
    [.select 3 { read := true } (onlyAccepts 4), .select 3 { read := true } (onlyAccepts 5)] _ rfl
    [(4, { read := true }, onlyAccepts 0), (5, { read := true }, onlyAccepts 0)] (by decide)
  exact absurd (congrArg Except.isOk hrun) (by decide)

end MixServer.Server
