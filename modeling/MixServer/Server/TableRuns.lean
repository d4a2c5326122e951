import MixServer.Server.LifeCycle
import MixServer.Server.TablesAgree

/-!
The runs of a `TcpServer`, as runs of its tables.

Whatever a dispatch does, nested callbacks included, it does to the tables by the
calls of `MixServer.Server.Tables`: `run_tables` says that every run of the server
model is matched, state by state, by a legal sequence of these calls, with `Poll`
as the selector.
-/

namespace MixServer.Server

open Lib Net
open Function (update)

/-! ### Sequences of calls -/

/-- Legal calls lead from `t` to `t'`. -/
def Tables.Reach (t t' : Tables) : Prop :=
  ∃ calls, Every Tables.call Tables.Legal t calls ∧ exec Tables.call t calls = .ok t'

namespace Tables

variable {t t' t'' : Tables}

theorem Reach.refl (t : Tables) : Reach t t := ⟨[], trivial, rfl⟩

theorem Reach.trans (h : Reach t t') (h' : Reach t' t'') : Reach t t'' := by
  obtain ⟨calls, hlegal, hrun⟩ := h
  obtain ⟨calls', hlegal', hrun'⟩ := h'
  refine ⟨calls ++ calls', (every_append hrun _).mpr ⟨hlegal, hlegal'⟩, ?_⟩
  rw [exec_append, hrun]
  exact hrun'

theorem Reach.single {c : Call} (hlegal : t.Legal c) (hcall : t.call c = .ok t') : Reach t t' :=
  ⟨[c], ⟨hlegal, fun _ _ => trivial⟩, by rw [exec_singleton, hcall]⟩

end Tables

/-! ### The two states -/

/-- The address of a handle: streams are made at their ids, the acceptor at 0. -/
def HandleRef.address : HandleRef → Nat
  | .acceptor => 0
  | .stream a => a

variable {ε : Type}

/-- The tables of a server, with `Poll` for its selector. -/
structure View (w : TcpServer ε) (t : Tables) : Prop where
  inv : t.Inv
  registered : ∀ p, t.registered p = true ↔ p = t.acceptor
  acceptor : t.acceptor = 0
  count : t.maxConnectId = w.maxConnectId
  streams : ∀ (id : Int) (p : Nat), t.streams id = some p ↔ id = p ∧ p ∈ w.streams
  objs : ∀ a ∈ w.streams, (t.objs a).fd = (w.heap a).fd ∧
    (t.objs a).events = (w.heap a).events.mask ∧ (t.objs a).ploop = true
  handles : ∀ fd : Nat, t.handles fd = (w.ploop.handles fd).map HandleRef.address
  selects : t.select_.Implements w.ploop.select_
  addresses : ∀ p, t.live p = true → p ≤ w.maxConnectId

/-- The tables can follow the server from `w` to `w'`, as long as the ids fit an
`int`. -/
structure Follows (w w' : TcpServer ε) : Prop where
  count : w.maxConnectId ≤ w'.maxConnectId
  tables : w'.maxConnectId < 2 ^ 31 → ∀ t, View w t → ∃ t', t.Reach t' ∧ View w' t'

variable {w w' w'' : TcpServer ε} {t : Tables} {a : Nat}

theorem Follows.trans (h : Follows w w') (h' : Follows w' w'') : Follows w w'' where
  count := h.count.trans h'.count
  tables hlt t ht := by
    obtain ⟨t', hreach, ht'⟩ := h.tables (h'.count.trans_lt hlt) t ht
    obtain ⟨t'', hreach', ht''⟩ := h'.tables hlt t' ht'
    exact ⟨t'', hreach.trans hreach', ht''⟩

/-- What does not touch the tables. -/
theorem Follows.of_same (hstreams : w'.streams = w.streams)
    (hcount : w'.maxConnectId = w.maxConnectId) (hploop : w'.ploop = w.ploop)
    (hheap : ∀ a ∈ w.streams, (w'.heap a).fd = (w.heap a).fd ∧
      (w'.heap a).events = (w.heap a).events) : Follows w w' where
  count := hcount.ge
  tables _ t ht := by
    refine ⟨t, Tables.Reach.refl t, ht.inv, ht.registered, ht.acceptor, ?_, ?_, ?_, ?_, ?_, ?_⟩
    · rw [hcount]
      exact ht.count
    · rw [hstreams]
      exact ht.streams
    · rw [hstreams]
      intro a ha
      rw [(hheap a ha).1, (hheap a ha).2]
      exact ht.objs a ha
    · rw [hploop]
      exact ht.handles
    · rw [hploop]
      exact ht.selects
    · rw [hcount]
      exact ht.addresses

theorem Follows.refl (w : TcpServer ε) : Follows w w :=
  .of_same rfl rfl rfl fun _ _ => ⟨rfl, rfl⟩

theorem Follows.modify (w : TcpServer ε) (a : Nat) {f : TcpStream → TcpStream}
    (hfd : (f (w.heap a)).fd = (w.heap a).fd)
    (hevents : (f (w.heap a)).events = (w.heap a).events) : Follows w (w.modify a f) := by
  refine .of_same rfl rfl rfl fun b _ => ?_
  rw [TcpServer.modify_heap]
  split
  · rename_i hb
    subst hb
    exact ⟨hfd, hevents⟩
  · exact ⟨rfl, rfl⟩

theorem Follows.log (w : TcpServer ε) (o : Obs) : Follows w (w.log o) :=
  .of_same rfl rfl rfl fun _ _ => ⟨rfl, rfl⟩

/-! ### The calls -/

theorem View.live (h : View w t) (ha : a ∈ w.streams) : t.live a = true :=
  h.inv.alive a (.inr ⟨a, (h.streams a a).mpr ⟨rfl, ha⟩⟩)

theorem View.connectId (h : View w t) (ha : a ∈ w.streams) :
    (t.objs a).connectId = some (a : Int) :=
  h.inv.own a a ((h.streams a a).mpr ⟨rfl, ha⟩)

/-- The selector follows a change of interests. -/
theorem View.updateEvent (h : View w t) (ha : a ∈ w.streams)
    (hselect : (w.ploop.select_ (w.heap a).fd).isSome = true) (e : Events) :
    ∃ s, t.select_.updateEvent (t.objs a).fd e.mask = .ok s ∧
      s.Implements (update w.ploop.select_ (w.heap a).fd (some e)) := by
  rw [(h.objs a ha).1]
  exact (h.selects.updateEvent (w.heap a).fd e).exists_ok (if_pos hselect)

/-- The interests of a connection change as `f` changes their mask; `c` is
`enable_event` or `disable_event`. -/
theorem View.setEvents (h : View w t) (ha : a ∈ w.streams)
    (hselect : (w.ploop.select_ (w.heap a).fd).isSome = true) {e : Events} {f : Mask → Mask}
    (hmask : f (w.heap a).events.mask = e.mask) {c : Call} (hlegal : t.Legal c)
    (hcall : t.call c =
      if ((t.modify a fun h => { h with events := f h.events }).objs a).ploop then
        (t.modify a fun h => { h with events := f h.events }).updateEvent a
      else .error .getLoop) : ∃ t', t.Reach t' ∧ View (w.setEvents a e) t' := by
  obtain ⟨hfd, hevents, hploop⟩ := h.objs a ha
  obtain ⟨s, hs, hselects⟩ := h.updateEvent ha hselect e
  have hobj : (t.modify a fun h => { h with events := f h.events }).objs a =
      { t.objs a with events := e.mask } := by
    rw [← hmask, ← hevents]
    exact Function.update_self _ _ _
  have hok : t.call c =
      .ok { t.modify a (fun h => { h with events := f h.events }) with select_ := s } := by
    have hselect' : (t.modify a fun h => { h with events := f h.events }).select_ = t.select_ := rfl
    rw [hcall, hobj, if_pos hploop, Tables.updateEvent, Tables.onSelect, hobj, hselect', hs]
  have hinv := (h.inv.changeEvents (h.live ha) f).of_ok (hcall.symm.trans hok)
  refine ⟨_, Tables.Reach.single hlegal hok, hinv, h.registered, h.acceptor, h.count, h.streams,
    ?_, h.handles, hselects, h.addresses⟩
  intro b hb
  rw [TcpServer.setEvents_heap]
  by_cases hba : b = a
  · subst hba
    rw [hobj, if_pos rfl]
    exact ⟨hfd, rfl, hploop⟩
  · rw [if_neg hba]
    have hother : (t.modify a fun h => { h with events := f h.events }).objs b = t.objs b :=
      Function.update_of_ne hba _ _
    rw [hother]
    exact h.objs b hb

/-- A connection leaves the tables. -/
theorem View.tearDown (h : View w t) (ha : a ∈ w.streams)
    (hselect : (w.ploop.select_ (w.heap a).fd).isSome = true) :
    ∃ t', t.Reach t' ∧ View (w.tearDown a) t' := by
  obtain ⟨hfd, -, -⟩ := h.objs a ha
  have hid := h.connectId ha
  have hsome : (t.streams a).isSome = true := by
    rw [(h.streams a a).mpr ⟨rfl, ha⟩]
    rfl
  obtain ⟨s, hs, hselects⟩ := (h.selects.unregistHandle (w.heap a).fd).exists_ok (if_pos hselect)
  have hok : t.call (.closeConnect a) = .ok
      { t.modify a (fun h => { h with revents := 0 }) with
        select_ := s
        handles := update t.handles (w.heap a).fd none
        streams := update t.streams a none } := by
    simp only [Tables.call, hid, Tables.closeConnect, if_pos hsome, Tables.unregistHandle,
      Tables.onSelect, hfd, hs]
    rfl
  have hlegal : t.Legal (.closeConnect a) := ⟨h.live ha, by rw [hid]; rfl⟩
  have hclose : t.closeConnect a a = t.call (.closeConnect a) := by
    simp only [Tables.call, hid]
  have hinv := (h.inv.closeConnect (h.live ha) hid).of_ok (hclose.trans hok)
  refine ⟨_, Tables.Reach.single hlegal hok, hinv, h.registered, h.acceptor, h.count, ?_, ?_,
    ?_, hselects, h.addresses⟩
  · intro id p
    rw [TcpServer.tearDown_streams, Finset.mem_erase]
    by_cases hida : id = a
    · subst hida
      simp only [Function.update_self]
      constructor
      · intro hnone
        cases hnone
      · rintro ⟨hp, hne, -⟩
        exact absurd (Int.natCast_inj.mp hp).symm hne
    · simp only [Function.update_of_ne hida, h.streams]
      constructor
      · rintro ⟨rfl, hp⟩
        exact ⟨rfl, fun hpa => hida (by rw [hpa]), hp⟩
      · rintro ⟨hp, -, hmem⟩
        exact ⟨hp, hmem⟩
  · intro b hb
    obtain ⟨hba, hb⟩ := Finset.mem_erase.mp hb
    have hother : (t.modify a fun h => { h with revents := 0 }).objs b = t.objs b :=
      Function.update_of_ne hba _ _
    rw [TcpServer.tearDown_heap, if_neg hba, hother]
    exact h.objs b hb
  · exact Poll.update_map h.handles (w.heap a).fd none

/-- The descriptor of an object that is in no table can be had again: the object
has gone. -/
theorem View.released (h : View w t) {fd : Nat} (hnew : w.ploop.select_ fd = none) :
    ∃ t', t.Reach t' ∧ View w t' ∧ t'.Unused fd := by
  by_cases hused : t.Unused fd
  · exact ⟨t, Tables.Reach.refl t, h, hused⟩
  · simp only [Tables.Unused, not_forall, not_not] at hused
    obtain ⟨p, hlive, hfd⟩ := hused
    have hunknown : t.handles fd = none := by
      apply h.inv.serves.interest_eq_none
      rw [h.selects.interest, hnew]
      rfl
    have hp : p ∉ t.held := by
      intro hheld
      rw [(h.inv.serves.mapped fd p).mpr ⟨hheld, hfd⟩] at hunknown
      cases hunknown
    have hlegal : t.Legal (.release p) := by
      constructor
      · intro id hid
        exact hp (.inr ⟨id, hid⟩)
      · intro fd' hfd'
        exact hp ((h.inv.serves.mapped fd' p).mp hfd').1
    refine ⟨_, Tables.Reach.single hlegal rfl, ?_, ?_⟩
    · refine ⟨h.inv.release hp, h.registered, h.acceptor, h.count, h.streams, h.objs, h.handles,
        h.selects, ?_⟩
      intro q hq
      by_cases hqp : q = p
      · subst hqp
        exact h.addresses q hlive
      · exact h.addresses q (by simpa [hqp] using hq)
    · intro q hq hqfd
      by_cases hqp : q = p
      · subst hqp
        simp at hq
      · have hq' : t.live q = true := by simpa [hqp] using hq
        exact hqp (h.inv.distinct q p hq' hlive (hqfd.trans hfd.symm))

/-- What `new_connect` does when `s` is the selector that knows the new descriptor. -/
def Tables.connected (t : Tables) (p : Nat) (fd id : Int) (s : Poll) : Tables :=
  { t with
    streams := update t.streams id (some p)
    maxConnectId := id
    handles := update t.handles fd (some p)
    select_ := s
    objs := update t.objs p
      { fd := fd, events := READ ||| ERROR, ploop := true, connectId := some id }
    live := update t.live p true
    connectIds := t.connectIds ++ [id] }

theorem Tables.newConnect_eq {p : Nat} {fd id : Int} {s : Poll}
    (hid : Int.bmod (t.maxConnectId + 1) (2 ^ 32) = id) (hfd : fd ≠ -1)
    (hs : t.select_.addHandle fd (READ ||| ERROR) = .ok s) :
    t.newConnect p fd true = .ok (t.connected p fd id s) := by
  simp only [Tables.newConnect, hid, if_true, Tables.registHandle, Tables.make, Tables.modify,
    Tables.onSelect, Function.update_self, if_neg hfd, hs, ok_bind, Function.update_idem]
  rfl

/-- The new connection is in both maps under the next id. -/
theorem View.connected_streams (h : View w t) (fd : Nat) (s : Poll) (id : Int) (p : Nat) :
    (t.connected (w.maxConnectId + 1) fd (w.maxConnectId + 1 : Nat) s).streams id = some p ↔
      id = p ∧ p ∈ (w.connected fd).streams := by
  rw [TcpServer.connected_streams, Finset.mem_insert]
  by_cases hnext : id = (w.maxConnectId + 1 : Nat)
  · subst hnext
    simp only [Tables.connected, Function.update_self, Option.some.injEq, Int.natCast_inj]
    constructor
    · intro hp
      exact ⟨hp, .inl hp.symm⟩
    · exact And.left
  · simp only [Tables.connected, Function.update_of_ne hnext, h.streams]
    constructor
    · rintro ⟨hp, hmem⟩
      exact ⟨hp, .inr hmem⟩
    · rintro ⟨hp, rfl | hmem⟩
      · exact absurd hp hnext
      · exact ⟨hp, hmem⟩

/-- A connection is accepted. -/
theorem View.connected (h : View w t) {fd : Nat} (hnew : w.ploop.select_ fd = none)
    (hlt : w.maxConnectId + 1 < 2 ^ 31) : ∃ t', t.Reach t' ∧ View (w.connected fd) t' := by
  obtain ⟨t₁, hreach, h₁, hunused⟩ := h.released hnew
  have hfree : t₁.live (w.maxConnectId + 1) = false := by
    by_contra hlive
    have hle := h₁.addresses _ (Bool.eq_true_of_not_eq_false hlive)
    omega
  have hlen : t₁.connectIds.length + 1 < 2 ^ 31 := by
    have hcount := h₁.inv.count
    rw [h₁.count] at hcount
    omega
  have hid : Int.bmod (t₁.maxConnectId + 1) (2 ^ 32) = (w.maxConnectId + 1 : Nat) := by
    rw [← (h₁.inv.nextId hlen).1, h₁.count]
    rfl
  have hunknown : ¬ (w.ploop.select_ fd).isSome = true := by simp [hnew]
  obtain ⟨s, hs, hselects⟩ := (h₁.selects.registHandle fd { read := true, error := true }
    (.stream (w.maxConnectId + 1))).exists_ok (if_neg hunknown)
  have hok : t₁.call (.newConnect (w.maxConnectId + 1) fd true) =
      .ok (t₁.connected (w.maxConnectId + 1) fd (w.maxConnectId + 1 : Nat) s) :=
    Tables.newConnect_eq hid (by omega) hs
  have hlegal : t₁.Legal (.newConnect (w.maxConnectId + 1) fd true) := ⟨hfree, hunused⟩
  have hinv := (h₁.inv.newConnect hfree hunused true).of_ok hok (by simpa [Tables.connected])
  refine ⟨_, hreach.trans (Tables.Reach.single hlegal hok), hinv, h₁.registered, h₁.acceptor, rfl,
    h₁.connected_streams fd s, ?_,
    Poll.update_map h₁.handles fd (some (.stream (w.maxConnectId + 1))), hselects, ?_⟩
  · intro b hb
    rw [TcpServer.connected_heap, Tables.connected]
    by_cases hnext : b = w.maxConnectId + 1
    · subst hnext
      simp only [Function.update_self]
      exact ⟨trivial, rfl, trivial⟩
    · simp only [Function.update_of_ne hnext]
      rcases Finset.mem_insert.mp hb with hb | hb
      · exact absurd hb hnext
      · exact h₁.objs b hb
  · intro p hp
    by_cases hnext : p = w.maxConnectId + 1
    · exact hnext.le
    · have hp' : t₁.live p = true := by simpa [Tables.connected, hnext] using hp
      exact (h₁.addresses p hp').trans (Nat.le_succ _)

/-- The tables after `bind`. -/
theorem view_bind (fd : Nat) (ext : ε) :
    ∃ t, Tables.bind 0 fd = .ok t ∧ View (TcpServer.bind fd ext) t := by
  have hempty : ({} : Poll).Implements EventLoop.empty.select_ := ⟨Poll.exact_empty, fun _ => rfl⟩
  obtain ⟨s, hs, hselects⟩ :=
    (hempty.registHandle fd { read := true, error := true } .acceptor).exists_ok rfl
  have hadd : ({} : Poll).addHandle fd (READ ||| ERROR) = .ok s := hs
  have hok : Tables.bind 0 fd = .ok
      { Tables.init 0 with
        handles := update (fun _ => none) (fd : Int) (some 0)
        select_ := s
        objs := update (fun _ => {}) 0 { fd := fd, events := READ ||| ERROR, ploop := true }
        live := update (fun _ => false) 0 true
        registered := update (fun _ => false) 0 true } := by
    have hfd : (fd : Int) ≠ -1 := by omega
    simp only [Tables.bind, Tables.call, Tables.registHandle, Tables.make, Tables.modify,
      Tables.onSelect, Tables.init, Function.update_self, if_neg hfd, hadd, ok_bind,
      Function.update_idem]
    rfl
  have hgood := (Tables.bind_good 0 fd).of_ok hok
  refine ⟨_, hok, (hgood (Nat.two_pow_pos 31)).1, ?_, rfl, rfl, ?_, ?_, ?_, hselects, ?_⟩
  · intro p
    by_cases hp : p = 0
    · simp [hp, Tables.init]
    · simp [hp, Tables.init]
  · intro id p
    simp [Tables.init, TcpServer.bind]
  · intro a ha
    simp [TcpServer.bind] at ha
  · have hnone : ∀ fd : Nat, (Tables.init 0).handles fd =
        (EventLoop.empty.handles fd).map HandleRef.address := fun _ => rfl
    exact Poll.update_map hnone fd (some .acceptor)
  · intro p hp
    by_cases hp0 : p = 0
    · exact hp0.le
    · simp [hp0] at hp

/-! ### The methods

`Inv always` tells, as in `MixServer.Server.LifeCycle`, that what a method uses is
in `streams`. -/

section Methods

variable {busy : Option Nat}

theorem mask_enable (e : Events) : e.mask ||| WRITE = Events.mask { e with write := true } := by
  rcases e with ⟨r, v, x⟩
  cases r <;> cases v <;> cases x <;> rfl

theorem mask_disable (e : Events) :
    e.mask &&& ~~~WRITE = Events.mask { e with write := false } := by
  rcases e with ⟨r, v, x⟩
  cases r <;> cases v <;> cases x <;> rfl

theorem setEvents_follows (h : Inv always busy w) (ha : a ∈ w.streams) {e : Events}
    {f : Mask → Mask} (hmask : f (w.heap a).events.mask = e.mask) {c : Call}
    (hlegal : ∀ t : Tables, t.live a = true → t.Legal c)
    (hcall : ∀ t : Tables, t.call c =
      if ((t.modify a fun h => { h with events := f h.events }).objs a).ploop then
        (t.modify a fun h => { h with events := f h.events }).updateEvent a
      else .error .getLoop) : Follows w (w.setEvents a e) where
  count := le_rfl
  tables _ t ht := by
    have hselect : (w.ploop.select_ (w.heap a).fd).isSome = true := by
      rw [(h.registered a ha).2]
      rfl
    exact ht.setEvents ha hselect hmask (hlegal t (ht.live ha)) (hcall t)

theorem send_follows (h : Inv always busy w) (ha : a ∈ w.streams) (p : Bytes) :
    Ensures (TcpStream.send a p w) (Follows w) fun _ => True := by
  rw [h.send_eq ha, ensures_ok]
  apply Follows.trans
  · exact setEvents_follows h ha (f := fun m => m ||| WRITE) (mask_enable _)
      (c := .enableEvent a WRITE) (fun t ht => ht) fun t => rfl
  · exact Follows.modify _ a rfl rfl

theorem disableWrite_follows (h : Inv always busy w) (ha : a ∈ w.streams) :
    Ensures (TcpStream.disableWrite a w) (Follows w) fun _ => True := by
  rw [h.disableWrite_eq ha, ensures_ok]
  exact setEvents_follows h ha (f := fun m => m &&& ~~~WRITE) (mask_disable _)
    (c := .disableEvent a WRITE) (fun t ht => ht) fun t => rfl

theorem closeConnect_follows (h : Inv always busy w) (ha : a ∈ w.streams) :
    Ensures (TcpServer.closeConnect a w) (Follows w) fun _ => True := by
  rw [h.closeConnect_eq ha, ensures_ok]
  refine ⟨le_rfl, fun _ t ht => ht.tearDown ha ?_⟩
  rw [(h.registered a ha).2]
  rfl

theorem close_follows (h : Inv always (some a) w) (ha : a ∈ w.streams) :
    Ensures (TcpStream.close TcpServer.closeConnect a w) (Follows w) fun _ => True := by
  have hclosing := h.setClosing trivial
  have hfollows : Follows w (w.modify a fun s => { s with closing := true }) :=
    Follows.modify w a rfl rfl
  unfold TcpStream.close
  dsimp only
  split
  · apply (closeConnect_follows hclosing ha).bind
    intro w' h'
    exact (hfollows.trans h').trans (Follows.modify w' a rfl rfl)
  · exact hfollows

/-! ### The script -/

theorem modifySender_follows (w : TcpServer ε) (f : PySender → PySender) :
    Follows w (PySender.modify a f w) :=
  Follows.of_same rfl rfl rfl fun _ _ => ⟨rfl, rfl⟩

theorem perform_follows (h : Inv always none w) (act : Action) :
    Ensures (act.perform TcpServer.closeConnect w) (Follows w) fun _ => True := by
  cases act with
  | send b p =>
    simp only [Action.perform]
    split
    · rename_i hb
      exact send_follows h hb.2 p
    · exact Follows.refl w
  | close b =>
    simp only [Action.perform]
    cases hs : w.senders b with
    | none => exact Follows.refl w
    | some s =>
      dsimp only
      split
      · exact Follows.refl w
      · rename_i hclosed
        apply (close_follows (h.idle _) (h.mem_of_open hs hclosed)).bind
        intro w' h'
        exact h'.trans (modifySender_follows w' _)
  | setReadingLine b value => exact modifySender_follows w _

theorem performAll_follows (h : Inv always none w) (acts : List Action) :
    Ensures (exec (Action.perform TcpServer.closeConnect) w acts) (Follows w) fun _ => True := by
  have hstep : ∀ (w' : TcpServer ε) (act : Action), Inv always none w' ∧ Follows w w' →
      Ensures (act.perform TcpServer.closeConnect w')
        (fun w'' => Inv always none w'' ∧ Follows w w'') fun _ => True := by
    rintro w' act ⟨h', hfollows⟩
    have hinv : Ensures _ (Inv always none) fun _ => True := h'.perform closes_always act
    apply (hinv.and (perform_follows h' act)).mono _ fun _ _ => trivial
    rintro w'' ⟨h'', hfollows'⟩
    exact ⟨h'', hfollows.trans hfollows'⟩
  apply (exec_ensures hstep ⟨h, Follows.refl w⟩ acts).mono _ fun _ => id
  exact fun w' h' => h'.2

end Methods

/-! ### Dispatch -/

section Dispatch

variable {w w' : TcpServer Unit} (script : Script)

theorem handleRead_follows (h : Inv always none w) (ha : a ∈ w.streams) (rets : Socket.RecvRets) :
    Ensures (TcpStream.handleRead (scripted script) rets a w) (Follows w) fun _ => True := by
  have hrecv := h.received ha rets.chunks.flatten
  have hfollows : Follows w (w.received a rets.chunks.flatten) :=
    (Follows.log w (.handleRead a)).trans (Follows.modify _ a rfl rfl)
  rw [TcpStream.handleRead_eq]
  split
  · exact (close_follows (hrecv.idle _) ha).mono (fun _ => hfollows.trans) fun _ => id
  · rename_i e hlast
    split
    · have hlog : Inv always none ((w.received a rets.chunks.flatten).log (.recvError a e)) :=
        hrecv.log (by simp)
      apply (close_follows (hlog.idle _) ha).mono _ fun _ => id
      exact fun _ => (hfollows.trans (Follows.log _ _)).trans
    · exact (performAll_follows hrecv _).mono (fun _ => hfollows.trans) fun _ => id

theorem afterWrite_follows (h : Inv always (some a) w) (ha : a ∈ w.streams) :
    Ensures (TcpStream.afterWrite (scripted script) a w) (Follows w) fun _ => True := by
  unfold TcpStream.afterWrite
  split
  · rename_i hnil
    have hset := h.setEvents ha (e := { (w.heap a).events with write := false })
      (fun hne => absurd hnil hne)
    have hfollows := disableWrite_follows h ha
    rw [h.disableWrite_eq ha, ensures_ok] at hfollows
    rw [h.disableWrite_eq ha, ok_bind]
    split
    · exact (close_follows hset ha).mono (fun _ => hfollows.trans) fun _ => id
    · exact hfollows
  · exact Follows.refl w

theorem handleWrite_follows (h : Inv always none w) (ha : a ∈ w.streams)
    (rets : List Socket.SendRet) :
    Ensures (TcpStream.handleWrite (scripted script) rets a w) (Follows w) fun _ => True := by
  have hsent := h.sent ha rets
  have hfollows : Follows w (w.sent a rets) :=
    (Follows.log w (.handleWrite a)).trans (Follows.modify _ a rfl rfl)
  rw [TcpStream.handleWrite_eq]
  split
  · exact (afterWrite_follows script hsent ha).mono (fun _ => hfollows.trans) fun _ => id
  · rename_i e herr
    split
    · apply (close_follows (hsent.log (by simp)) ha).mono _ fun _ => id
      exact fun _ => (hfollows.trans (Follows.log _ _)).trans
    · exact (afterWrite_follows script hsent ha).mono (fun _ => hfollows.trans) fun _ => id

theorem handleEvent_follows (h : Inv always none w) (io : Io) :
    Ensures (TcpStream.handleEvent (scripted script) io a w) (Follows w) fun _ => True := by
  refine Ensures.bind (Q := fun w' => Inv always none w' ∧ Follows w w') ?_ ?_
  · split
    · rename_i hread
      have ha := h.mem_of_event (.inl hread)
      have hinv : Ensures _ (Inv always none) fun _ => True :=
        h.handleRead (scripted_respects script) ha io.recv fun _ => trivial
      exact (hinv.and (handleRead_follows script h ha io.recv)).mono (fun _ => id)
        fun _ _ => trivial
    · exact ⟨h, Follows.refl w⟩
  · rintro w' ⟨h', hfollows⟩
    split
    · rename_i hwrite
      exact (handleWrite_follows script h' (h'.mem_of_event (.inr hwrite)) io.send).mono
        (fun _ => hfollows.trans) fun _ => id
    · exact hfollows

theorem newConnect_follows (h : Inv always none w) (fd : Nat) (peer : Bool) :
    Ensures ((scripted script).newConnect fd peer w) (Follows w) fun _ => True := by
  have hnew : Ensures (TcpServer.newConnect fd peer w)
      (fun w' => Inv always none w' ∧ w'.maxConnectId = w.maxConnectId + 1 ∧ Follows w w')
      fun _ => True := by
    rw [TcpServer.newConnect_eq]
    split
    · split
      · trivial
      · rename_i hnew
        rw [Bool.not_eq_true, Option.isSome_eq_false_iff, Option.isNone_iff_eq_none] at hnew
        refine ⟨h.connected (by simp [hnew]), rfl, Nat.le_succ _, ?_⟩
        exact fun hlt t ht => ht.connected hnew hlt
    · trivial
  apply hnew.bind
  rintro w' ⟨h', hid, hfollows⟩
  have hsender := h'.addSender (a := w'.maxConnectId) (by omega) le_rfl trivial {}
  have hsame : Follows w' { w' with senders := update w'.senders w'.maxConnectId (some {}) } :=
    Follows.of_same rfl rfl rfl fun _ _ => ⟨rfl, rfl⟩
  exact (performAll_follows hsender _).mono (fun _ => (hfollows.trans hsame).trans) fun _ => id

/-- One step of the server is a sequence of calls. -/
theorem step_follows (h : Inv always none w) (e : Event) :
    Ensures (step (scripted script) w e) (Follows w) fun _ => True := by
  cases e with
  | timer actions => exact performAll_follows h actions
  | select fd events io =>
    simp only [step, doSelect]
    cases hfd : w.ploop.handles fd with
    | none => trivial
    | some p =>
      cases p with
      | acceptor =>
        dsimp only
        split
        · unfold Acceptor.handleRead
          split
          · trivial
          · exact newConnect_follows script h _ _
        · exact Follows.refl w
      | stream a =>
        have hdispatched := h.dispatched (h.handled fd a hfd).1 events
        have hmodify : Follows w (w.modify a fun s => { s with revents := events }) :=
          Follows.modify w a rfl rfl
        exact (handleEvent_follows script hdispatched io).mono (fun _ => hmodify.trans) fun _ => id

end Dispatch

/-- Every run of a server is a sequence of legal calls on its tables, as long as
fewer than `2 ^ 31` connections have been accepted; so the tables agree. -/
theorem run_tables (script : Script) (fd : Nat) (es : List Event) :
    Ensures (exec (step (scripted script)) (TcpServer.bind fd ()) es)
      (fun w => w.maxConnectId < 2 ^ 31 →
        ∃ t₀ t, Tables.bind 0 fd = .ok t₀ ∧ t₀.Reach t ∧ View w t ∧ t.Agree)
      fun _ => True := by
  have hstep : ∀ w e, Inv always none w ∧ Follows (TcpServer.bind fd ()) w →
      Ensures (step (scripted script) w e)
        (fun w' => Inv always none w' ∧ Follows (TcpServer.bind fd ()) w') fun _ => True := by
    rintro w e ⟨h, hfollows⟩
    apply ((scripted_step script h e).and (step_follows script h e)).mono _ fun _ _ => trivial
    rintro w' ⟨h', hfollows'⟩
    exact ⟨h', hfollows.trans hfollows'⟩
  apply (exec_ensures hstep ⟨Inv.bind fd (), Follows.refl _⟩ es).mono _ fun _ => id
  rintro w ⟨-, hfollows⟩ hlt
  obtain ⟨t₀, hbind, h₀⟩ := view_bind fd ()
  obtain ⟨t, hreach, h⟩ := hfollows.tables hlt t₀ h₀
  exact ⟨t₀, t, hbind, hreach, h, h.inv.agree ((h.registered t.acceptor).mpr rfl)⟩

end MixServer.Server
