import Mathlib.Data.Set.Insert
import MixServer.Lib.Run
import MixServer.Net.Poll

/-!
The four tables that say who is connected: `TcpServer::streams`, the handles of
`EventLoop`, the selector's own table (`Poll`), and the events each `Handle`
keeps of itself.

They are changed by `bind`, `new_connect`, `close_connect`, `regist_handle`,
`unregist_handle`, `enable_event` and `disable_event`. `Agree` says what it means
that the tables agree, and a spec lemma for each method of the loop what it changes.
-/

namespace MixServer.Server

open Lib Net
open Function (update)

/-- The assertions that the calls can fail. -/
inductive TableAbort where
  /-- In the selector. -/
  | select (x : Abort)
  /-- `EventLoop::regist_handle`: `fd!=-1`. -/
  | registHandle
  /-- `Handle::get_loop`: no loop is set. -/
  | getLoop
  /-- `Socket::Socket(fd)`: `getpeername` failed. -/
  | getpeername
  /-- `TcpServer::close_connect`: the connection is not in `streams`. -/
  | closeConnect
  /-- `EventLoop::do_select`: no handle for an active descriptor. -/
  | doSelect
deriving DecidableEq, Repr

/-- A `Handle` object; `connectId` is that of a `TcpStream`. -/
structure HandleObj where
  fd : Int := -1
  events : Mask := 0
  revents : Mask := 0
  /-- `set_loop` has been called. -/
  ploop : Bool := false
  connectId : Option Int := none
deriving DecidableEq, Repr

/-- The tables. Objects are known by their addresses; `live` are those that have
been made and not destroyed. `registered` are the handles registered other than
by `new_connect`, and `connectIds` the ids given out so far. -/
structure Tables where
  streams : Int → Option Nat
  maxConnectId : Int
  acceptor : Nat
  handles : Int → Option Nat
  select_ : Poll
  objs : Nat → HandleObj
  live : Nat → Bool
  registered : Nat → Bool
  connectIds : List Int

namespace Tables

abbrev Result := Except TableAbort Tables

variable (t : Tables)

def modify (p : Nat) (f : HandleObj → HandleObj) : Tables :=
  { t with objs := update t.objs p (f (t.objs p)) }

/-- A new object at a free address. -/
def make (p : Nat) (h : HandleObj) : Tables :=
  { t with objs := update t.objs p h, live := update t.live p true }

/-- Calls a method of the selector. -/
def onSelect (f : Poll → Except Abort Poll) : Result :=
  match f t.select_ with
  | .ok s => .ok { t with select_ := s }
  | .error x => .error (.select x)

/-! ### `EventLoop` -/

/-- `EventLoop::regist_handle`. -/
def registHandle (p : Nat) : Result :=
  let fd := (t.objs p).fd
  if fd = -1 then
    .error .registHandle
  else do
    let t := t.modify p fun h => { h with ploop := true }
    let t ← t.onSelect fun s => s.addHandle fd (t.objs p).events
    return { t with handles := update t.handles fd (some p) }

/-- `EventLoop::unregist_handle`. -/
def unregistHandle (p : Nat) : Result := do
  let fd := (t.objs p).fd
  let t ← t.onSelect fun s => s.rmHandle fd
  let t := { t with handles := update t.handles fd none }
  return t.modify p fun h => { h with revents := 0 }

/-- `EventLoop::update_event`. -/
def updateEvent (p : Nat) : Result :=
  t.onSelect fun s => s.updateEvent (t.objs p).fd (t.objs p).events

/-- The head of a dispatch in `EventLoop::do_select`. -/
def doSelect (fd : Int) (events : Mask) : Result :=
  match t.handles fd with
  | some p => .ok (t.modify p fun h => { h with revents := events })
  | none => .error .doSelect

/-! ### `Handle` -/

/-- `Handle::enable_event`. -/
def enableEvent (p : Nat) (e : Mask) : Result :=
  let t := t.modify p fun h => { h with events := h.events ||| e }
  if (t.objs p).ploop then t.updateEvent p else .error .getLoop

/-- `Handle::disable_event`. -/
def disableEvent (p : Nat) (e : Mask) : Result :=
  let t := t.modify p fun h => { h with events := h.events &&& ~~~e }
  if (t.objs p).ploop then t.updateEvent p else .error .getLoop

/-! ### `TcpServer` -/

/-- `TcpServer::new_connect`; the stream is made at address `p`, and `peer` says
whether `getpeername` succeeds. -/
def newConnect (p : Nat) (fd : Int) (peer : Bool) : Result :=
  let id := Int.bmod (t.maxConnectId + 1) (2 ^ 32)
  let t := { t with maxConnectId := id, connectIds := t.connectIds ++ [id] }
  if peer then do
    let t := t.make p { fd := fd, events := READ ||| ERROR, connectId := some id }
    let t ← t.registHandle p
    return { t with streams := update t.streams id (some p) }
  else
    .error .getpeername

/-- `TcpServer::close_connect` of the stream at `p`, whose id is `id`. -/
def closeConnect (p : Nat) (id : Int) : Result :=
  if (t.streams id).isSome then do
    let t ← t.unregistHandle p
    return { t with streams := update t.streams id none }
  else
    .error .closeConnect

end Tables

/-- The calls that change the tables. -/
inductive Call where
  /-- A `Handle` that is no `TcpStream` is made: an inotify or a file handle. -/
  | make (p : Nat) (fd : Int) (events : Mask)
  | registHandle (p : Nat)
  | unregistHandle (p : Nat)
  | newConnect (p : Nat) (fd : Int) (peer : Bool)
  | closeConnect (p : Nat)
  | enableEvent (p : Nat) (e : Mask)
  | disableEvent (p : Nat) (e : Mask)
  | doSelect (fd : Int) (events : Mask)
  /-- The last reference of an object goes. -/
  | release (p : Nat)
deriving DecidableEq, Repr

/-- One call. -/
def Tables.call (t : Tables) : Call → Tables.Result
  | .make p fd events => .ok (t.make p { fd := fd, events := events })
  | .registHandle p => do
      let t ← t.registHandle p
      return { t with registered := update t.registered p true }
  | .unregistHandle p => do
      let t ← t.unregistHandle p
      return { t with registered := update t.registered p false }
  | .newConnect p fd peer => t.newConnect p fd peer
  | .closeConnect p =>
      match (t.objs p).connectId with
      | some id => t.closeConnect p id
      | none => .ok t
  | .enableEvent p e => t.enableEvent p e
  | .disableEvent p e => t.disableEvent p e
  | .doSelect fd events => t.doSelect fd events
  | .release p => .ok { t with live := update t.live p false }

/-- The tables of a server whose acceptor will be at address `p`. -/
def Tables.init (p : Nat) : Tables where
  streams _ := none
  maxConnectId := 0
  acceptor := p
  handles _ := none
  select_ := {}
  objs _ := {}
  live _ := false
  registered _ := false
  connectIds := []

/-- `TcpServer::bind`: the acceptor is made, with the listening socket `fd`, and
registered. -/
def Tables.bind (p : Nat) (fd : Int) : Tables.Result :=
  ((Tables.init p).make p { fd := fd, events := READ ||| ERROR }).call (.registHandle p)

namespace Tables

variable {t t' : Tables} {p : Nat}

/-! ### Agreement -/

/-- The handles that should be known to the loop: the streams in `streams`, and
those registered explicitly. -/
def held (t : Tables) : Set Nat := {p | t.registered p = true ∨ ∃ id, t.streams id = some p}

/-- The loop and the selector know just the handles in `held`, each under its
descriptor and with the READ and WRITE interest of its events. -/
structure Serves (held : Set Nat) (objs : Nat → HandleObj) (handles : Int → Option Nat)
    (interest : Int → Option (BitVec 16)) : Prop where
  mapped : ∀ fd p, handles fd = some p ↔ p ∈ held ∧ (objs p).fd = fd
  watched : ∀ fd, interest fd = (handles fd).map fun p => Poll.toPollEvent (objs p).events

/-- Server, event loop and selector agree on who is connected. -/
structure Agree (t : Tables) : Prop where
  own : ∀ id p, t.streams id = some p → (t.objs p).connectId = some id
  fresh : t.connectIds.Nodup
  acceptor : t.acceptor ∈ t.held
  serves : Serves t.held t.objs t.handles t.select_.interest
  exact : t.select_.Exact

namespace Serves

variable {held : Set Nat} {objs : Nat → HandleObj} {handles : Int → Option Nat}
variable {interest : Int → Option (BitVec 16)}

theorem interest_eq_none (h : Serves held objs handles interest) {fd : Int}
    (hfd : interest fd = none) : handles fd = none := by
  rw [h.watched, Option.map_eq_none_iff] at hfd
  exact hfd

/-- What the objects keep besides their descriptor and events does not matter. -/
theorem of_objs (h : Serves held objs handles interest) {objs' : Nat → HandleObj}
    (hobjs : ∀ p ∈ held, (objs' p).fd = (objs p).fd ∧ (objs' p).events = (objs p).events) :
    Serves held objs' handles interest where
  mapped fd p := by
    rw [h.mapped]
    constructor
    · rintro ⟨hp, hfd⟩
      exact ⟨hp, (hobjs p hp).1.trans hfd⟩
    · rintro ⟨hp, hfd⟩
      exact ⟨hp, (hobjs p hp).1.symm.trans hfd⟩
  watched fd := by
    rw [h.watched]
    cases hfd : handles fd with
    | none => rfl
    | some p =>
      have hp := ((h.mapped fd p).mp hfd).1
      simp [(hobjs p hp).2]

/-- A handle is registered. -/
theorem insert (h : Serves held objs handles interest) (hnone : interest (objs p).fd = none) :
    Serves (insert p held) objs (update handles (objs p).fd (some p))
      (update interest (objs p).fd (some (Poll.toPollEvent (objs p).events))) where
  mapped fd q := by
    have hfree := h.interest_eq_none hnone
    rw [Function.update_apply]
    split
    · rename_i hfd
      subst hfd
      constructor
      · intro hq
        cases hq
        exact ⟨Set.mem_insert _ _, rfl⟩
      · rintro ⟨hq | hq, hfd⟩
        · rw [hq]
        · rw [(h.mapped _ q).mpr ⟨hq, hfd⟩] at hfree
          cases hfree
    · rename_i hfd
      rw [h.mapped]
      constructor
      · rintro ⟨hq, hqfd⟩
        exact ⟨Set.mem_insert_of_mem _ hq, hqfd⟩
      · rintro ⟨rfl | hq, hqfd⟩
        · exact absurd hqfd.symm hfd
        · exact ⟨hq, hqfd⟩
  watched fd := by
    rw [Function.update_apply, Function.update_apply]
    split
    · rfl
    · exact h.watched fd

/-- A registered handle is unregistered. -/
theorem remove (h : Serves held objs handles interest) (hp : p ∈ held) :
    Serves (held \ {p}) objs (update handles (objs p).fd none)
      (update interest (objs p).fd none) where
  mapped fd q := by
    have hown := (h.mapped (objs p).fd p).mpr ⟨hp, rfl⟩
    rw [Function.update_apply]
    split
    · rename_i hfd
      subst hfd
      constructor
      · intro hq
        cases hq
      · rintro ⟨⟨hq, hne⟩, hfd⟩
        rw [(h.mapped _ q).mpr ⟨hq, hfd⟩] at hown
        exact absurd (Option.some.inj hown) hne
    · rename_i hfd
      rw [h.mapped]
      constructor
      · rintro ⟨hq, hqfd⟩
        refine ⟨⟨hq, ?_⟩, hqfd⟩
        rintro rfl
        exact hfd hqfd.symm
      · rintro ⟨⟨hq, -⟩, hqfd⟩
        exact ⟨hq, hqfd⟩
  watched fd := by
    rw [Function.update_apply, Function.update_apply]
    split
    · rfl
    · exact h.watched fd

/-- The events of a registered handle change. -/
theorem setEvents (h : Serves held objs handles interest) (hp : p ∈ held) (events : Mask) :
    Serves held (update objs p { objs p with events := events }) handles
      (update interest (objs p).fd (some (Poll.toPollEvent events))) where
  mapped fd q := by
    rw [h.mapped, Function.update_apply]
    split
    · rename_i hq
      rw [hq]
    · rfl
  watched fd := by
    have hown := (h.mapped (objs p).fd p).mpr ⟨hp, rfl⟩
    rw [Function.update_apply]
    split
    · rename_i hfd
      rw [hfd, hown]
      simp
    · rename_i hfd
      rw [h.watched]
      cases hq : handles fd with
      | none => rfl
      | some q =>
        have hne : q ≠ p := by
          rintro rfl
          exact hfd ((h.mapped fd q).mp hq).2.symm
        simp [hne]

end Serves

/-! ### The calls -/

theorem onSelect_spec {f : Poll → Except Abort Poll} {Q : Poll → Prop}
    (h : ∀ s, f t.select_ = .ok s → Q s) :
    Ensures (t.onSelect f) (fun t' => ∃ s, Q s ∧ t' = { t with select_ := s }) fun _ => True := by
  simp only [onSelect]
  cases hf : f t.select_ with
  | ok s => exact ⟨s, h s hf, rfl⟩
  | error x => trivial

theorem registHandle_spec (h : t.select_.Exact) (p : Nat) :
    Ensures (t.registHandle p) (fun t' => t.select_.interest (t.objs p).fd = none ∧
      ∃ s : Poll, s.Exact ∧
        s.interest = update t.select_.interest (t.objs p).fd
          (some (Poll.toPollEvent (t.objs p).events)) ∧
        t' = { t.modify p (fun h => { h with ploop := true }) with
          select_ := s
          handles := update t.handles (t.objs p).fd (some p) }) fun _ => True := by
  simp only [registHandle]
  split
  · trivial
  · apply (onSelect_spec fun s hs => h.addHandle hs).bind
    rintro t' ⟨s, ⟨hexact, -, hnone, hinterest⟩, rfl⟩
    refine ⟨hnone, s, hexact, ?_, rfl⟩
    simpa [modify] using hinterest

theorem unregistHandle_spec (h : t.select_.Exact) (p : Nat) :
    Ensures (t.unregistHandle p) (fun t' => (t.select_.interest (t.objs p).fd).isSome = true ∧
      ∃ s : Poll, s.Exact ∧ s.interest = update t.select_.interest (t.objs p).fd none ∧
        t' = { t.modify p (fun h => { h with revents := 0 }) with
          select_ := s
          handles := update t.handles (t.objs p).fd none }) fun _ => True := by
  simp only [unregistHandle]
  apply (onSelect_spec fun s hs => h.rmHandle hs).bind
  rintro t' ⟨s, ⟨hexact, hsome, hinterest⟩, rfl⟩
  exact ⟨hsome, s, hexact, hinterest, rfl⟩

theorem updateEvent_spec (h : t.select_.Exact) (p : Nat) :
    Ensures (t.updateEvent p) (fun t' => (t.select_.interest (t.objs p).fd).isSome = true ∧
      ∃ s : Poll, s.Exact ∧
        s.interest = update t.select_.interest (t.objs p).fd
          (some (Poll.toPollEvent (t.objs p).events)) ∧
        t' = { t with select_ := s }) fun _ => True := by
  apply (onSelect_spec fun s hs => h.updateEvent hs).mono _ fun _ => id
  rintro t' ⟨s, ⟨hexact, hsome, hinterest⟩, rfl⟩
  exact ⟨hsome, s, hexact, hinterest, rfl⟩

end Tables

end MixServer.Server
