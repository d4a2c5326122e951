import MixServer.Server.Tables

/-!
The tables of `MixServer.Server.Tables` agree after every call.

What a dispatch does to them, with all the callbacks nested in it, is a sequence of
calls of `bind`, `new_connect`, `close_connect` and so on. `Inv.call` is the step: no
call breaks the invariant. `tables_agree` is the run.
-/

namespace MixServer.Server

open Lib Net
open Function (update)

namespace Tables

variable {t t' : Tables} {p : Nat}

/-! ### The invariant -/

/-- No live object has the descriptor. -/
def Unused (t : Tables) (fd : Int) : Prop := ∀ p, t.live p = true → (t.objs p).fd ≠ fd

/-- What holds of the calls besides what they assert. A call is made on a live
object, and objects are made at free addresses; the kernel hands out descriptors
that no live object has, and an object in one of the tables has a reference.
Only `new_connect` and `close_connect` register and unregister streams, and
nothing unregisters the acceptor. -/
def Legal (t : Tables) : Call → Prop
  | .make p fd _ => t.live p = false ∧ t.Unused fd
  | .registHandle p => t.live p = true ∧ (t.objs p).connectId = none
  | .unregistHandle p => t.live p = true ∧ (t.objs p).connectId = none ∧ p ≠ t.acceptor
  | .newConnect p fd _ => t.live p = false ∧ t.Unused fd
  | .closeConnect p => t.live p = true ∧ (t.objs p).connectId.isSome = true
  | .enableEvent p _ | .disableEvent p _ => t.live p = true
  | .doSelect _ _ => True
  | .release p => (∀ id, t.streams id ≠ some p) ∧ ∀ fd, t.handles fd ≠ some p

/-- The agreement, with what is needed to keep it: live objects have different
descriptors and different ids, and the ids are numbered upwards. -/
structure Inv (t : Tables) : Prop where
  own : ∀ id p, t.streams id = some p → (t.objs p).connectId = some id
  serves : Serves t.held t.objs t.handles t.select_.interest
  exact : t.select_.Exact
  alive : ∀ p ∈ t.held, t.live p = true
  plain : ∀ p, t.registered p = true → (t.objs p).connectId = none
  distinct : ∀ p q, t.live p = true → t.live q = true → (t.objs p).fd = (t.objs q).fd → p = q
  single : ∀ p q id, t.live p = true → t.live q = true → (t.objs p).connectId = some id →
    (t.objs q).connectId = some id → p = q
  issued : ∀ p id, t.live p = true → (t.objs p).connectId = some id → id ∈ t.connectIds
  numbered : ∀ id ∈ t.connectIds, id ≤ t.maxConnectId
  fresh : t.connectIds.Nodup
  count : t.maxConnectId = t.connectIds.length

theorem inv_init (p : Nat) : Inv (init p) where
  own id p h := by cases h
  serves := by
    constructor
    · intro fd p
      simp [init, held]
    · intro fd
      rfl
  exact := Poll.exact_empty
  alive p hp := by simp [init, held] at hp
  plain p hp := by cases hp
  distinct p q hp := by cases hp
  single p q id hp := by cases hp
  issued p id hp := by cases hp
  numbered id hid := by cases hid
  fresh := List.nodup_nil
  count := rfl

theorem Inv.agree (h : Inv t) (hacceptor : t.registered t.acceptor = true) : Agree t where
  own := h.own
  fresh := h.fresh
  acceptor := .inl hacceptor
  serves := h.serves
  exact := h.exact

/-- A live object under a descriptor the loop knows is the handle it knows. -/
theorem Inv.mem_held (h : Inv t) (hp : t.live p = true)
    (hsome : (t.select_.interest (t.objs p).fd).isSome = true) : p ∈ t.held := by
  rw [h.serves.watched, Option.isSome_map] at hsome
  obtain ⟨q, hq⟩ := Option.isSome_iff_exists.mp hsome
  obtain ⟨hheld, hfd⟩ := (h.serves.mapped _ q).mp hq
  rwa [h.distinct p q hp (h.alive q hheld) hfd.symm]

/-- A change to an object that keeps its descriptor, events and id. -/
theorem Inv.modify (h : Inv t) {f : HandleObj → HandleObj} (hfd : (f (t.objs p)).fd = (t.objs p).fd)
    (hevents : (f (t.objs p)).events = (t.objs p).events)
    (hid : (f (t.objs p)).connectId = (t.objs p).connectId) : Inv (t.modify p f) := by
  have hobjs : ∀ q, ((t.modify p f).objs q).fd = (t.objs q).fd ∧
      ((t.modify p f).objs q).events = (t.objs q).events ∧
      ((t.modify p f).objs q).connectId = (t.objs q).connectId := by
    intro q
    by_cases hq : q = p
    · subst hq
      simp [Tables.modify, hfd, hevents, hid]
    · simp [Tables.modify, hq]
  constructor
  · intro id q hq
    rw [(hobjs q).2.2]
    exact h.own id q hq
  · exact h.serves.of_objs fun q _ => ⟨(hobjs q).1, (hobjs q).2.1⟩
  · exact h.exact
  · exact h.alive
  · intro q hq
    rw [(hobjs q).2.2]
    exact h.plain q hq
  · intro q r hq hr
    rw [(hobjs q).1, (hobjs r).1]
    exact h.distinct q r hq hr
  · intro q r id hq hr
    rw [(hobjs q).2.2, (hobjs r).2.2]
    exact h.single q r id hq hr
  · intro q id hq
    rw [(hobjs q).2.2]
    exact h.issued q id hq
  · exact h.numbered
  · exact h.fresh
  · exact h.count

/-- A new object, with an id that no object has, if it has one. -/
theorem Inv.make (h : Inv t) {o : HandleObj} (hfree : t.live p = false) (hunused : t.Unused o.fd)
    (hid : ∀ id, o.connectId = some id →
      id ∈ t.connectIds ∧ ∀ q, t.live q = true → (t.objs q).connectId ≠ some id) :
    Inv (t.make p o) := by
  have hne : ∀ {q}, t.live q = true → q ≠ p := by
    rintro q hq rfl
    rw [hfree] at hq
    cases hq
  have hold : ∀ {q}, t.live q = true → (t.make p o).objs q = t.objs q := fun hq =>
    Function.update_of_ne (hne hq) _ _
  have hnew : (t.make p o).objs p = o := Function.update_self _ _ _
  have hlive : ∀ q, (t.make p o).live q = true → q = p ∨ t.live q = true := by
    intro q hq
    by_cases hqp : q = p
    · exact .inl hqp
    · right
      simpa [Tables.make, hqp] using hq
  constructor
  · intro id q hq
    rw [hold (h.alive q (.inr ⟨id, hq⟩))]
    exact h.own id q hq
  · apply h.serves.of_objs
    intro q hq
    rw [hold (h.alive q hq)]
    exact ⟨rfl, rfl⟩
  · exact h.exact
  · intro q hq
    have hq' := h.alive q hq
    simpa [Tables.make, hne hq'] using hq'
  · intro q hq
    rw [hold (h.alive q (.inl hq))]
    exact h.plain q hq
  · intro q r hq hr
    rcases hlive q hq with rfl | hq'
    · rcases hlive r hr with rfl | hr'
      · exact fun _ => rfl
      · rw [hnew, hold hr']
        exact fun hfd => absurd hfd.symm (hunused r hr')
    · rcases hlive r hr with rfl | hr'
      · rw [hnew, hold hq']
        exact fun hfd => absurd hfd (hunused q hq')
      · rw [hold hq', hold hr']
        exact h.distinct q r hq' hr'
  · intro q r id hq hr
    rcases hlive q hq with rfl | hq'
    · rcases hlive r hr with rfl | hr'
      · exact fun _ _ => rfl
      · rw [hnew, hold hr']
        exact fun hqid hrid => absurd hrid ((hid id hqid).2 r hr')
    · rcases hlive r hr with rfl | hr'
      · rw [hnew, hold hq']
        exact fun hqid hrid => absurd hqid ((hid id hrid).2 q hq')
      · rw [hold hq', hold hr']
        exact h.single q r id hq' hr'
  · intro q id hq
    rcases hlive q hq with rfl | hq'
    · rw [hnew]
      exact fun hqid => (hid id hqid).1
    · rw [hold hq']
      exact h.issued q id hq'
  · exact h.numbered
  · exact h.fresh
  · exact h.count

/-- A live object enters the tables. -/
theorem Inv.insert (h : Inv t) (hlive : t.live p = true)
    (hnone : t.select_.interest (t.objs p).fd = none) {s : Poll} (hexact : s.Exact)
    (hinterest : s.interest = update t.select_.interest (t.objs p).fd
      (some (Poll.toPollEvent (t.objs p).events)))
    (streams' : Int → Option Nat) (registered' : Nat → Bool)
    (hown : ∀ id q, streams' id = some q → (t.objs q).connectId = some id)
    (hplain : ∀ q, registered' q = true → (t.objs q).connectId = none)
    (hheld : ∀ q, (registered' q = true ∨ ∃ id, streams' id = some q) ↔ q = p ∨ q ∈ t.held) :
    Inv { t with
      select_ := s
      handles := update t.handles (t.objs p).fd (some p)
      streams := streams'
      registered := registered' } where
  own := hown
  serves := by
    have hset : {q | registered' q = true ∨ ∃ id, streams' id = some q} = Insert.insert p t.held :=
      Set.ext hheld
    rw [held, hset, hinterest]
    exact h.serves.insert hnone
  exact := hexact
  alive q hq := by
    rcases (hheld q).mp hq with rfl | hq
    · exact hlive
    · exact h.alive q hq
  plain := hplain
  distinct := h.distinct
  single := h.single
  issued := h.issued
  numbered := h.numbered
  fresh := h.fresh
  count := h.count

/-- An object leaves the tables. -/
theorem Inv.remove (h : Inv t) (hp : p ∈ t.held) {s : Poll} (hexact : s.Exact)
    (hinterest : s.interest = update t.select_.interest (t.objs p).fd none)
    (streams' : Int → Option Nat) (registered' : Nat → Bool)
    (hown : ∀ id q, streams' id = some q → (t.objs q).connectId = some id)
    (hplain : ∀ q, registered' q = true → (t.objs q).connectId = none)
    (hheld : ∀ q, (registered' q = true ∨ ∃ id, streams' id = some q) ↔ q ∈ t.held ∧ q ≠ p) :
    Inv { t with
      select_ := s
      handles := update t.handles (t.objs p).fd none
      streams := streams'
      registered := registered' } where
  own := hown
  serves := by
    have hset : {q | registered' q = true ∨ ∃ id, streams' id = some q} = t.held \ {p} :=
      Set.ext hheld
    rw [held, hset, hinterest]
    exact h.serves.remove hp
  exact := hexact
  alive q hq := h.alive q ((hheld q).mp hq).1
  plain := hplain
  distinct := h.distinct
  single := h.single
  issued := h.issued
  numbered := h.numbered
  fresh := h.fresh
  count := h.count

/-- An object in the tables changes its events, and the selector with it. -/
theorem Inv.setEvents (h : Inv t) (hp : p ∈ t.held) {events : Mask} {s : Poll} (hexact : s.Exact)
    (hinterest : s.interest = update t.select_.interest (t.objs p).fd
      (some (Poll.toPollEvent events))) :
    Inv { t.modify p (fun h => { h with events := events }) with select_ := s } := by
  have hobjs : ∀ q, ((t.modify p fun h => { h with events := events }).objs q).fd = (t.objs q).fd ∧
      ((t.modify p fun h => { h with events := events }).objs q).connectId =
        (t.objs q).connectId := by
    intro q
    by_cases hq : q = p
    · subst hq
      simp [Tables.modify]
    · simp [Tables.modify, hq]
  constructor
  · intro id q hq
    rw [(hobjs q).2]
    exact h.own id q hq
  · rw [hinterest]
    exact h.serves.setEvents hp events
  · exact hexact
  · exact h.alive
  · intro q hq
    rw [(hobjs q).2]
    exact h.plain q hq
  · intro q r hq hr
    rw [(hobjs q).1, (hobjs r).1]
    exact h.distinct q r hq hr
  · intro q r id hq hr
    rw [(hobjs q).2, (hobjs r).2]
    exact h.single q r id hq hr
  · intro q id hq
    rw [(hobjs q).2]
    exact h.issued q id hq
  · exact h.numbered
  · exact h.fresh
  · exact h.count

/-! ### Steps -/

theorem Inv.registHandle (h : Inv t) (hlive : t.live p = true)
    (hplain : (t.objs p).connectId = none) :
    Ensures (t.call (.registHandle p)) Inv fun _ => True := by
  apply (registHandle_spec h.exact p).bind
  rintro t' ⟨hnone, s, hexact, hinterest, rfl⟩
  have hregistered : ∀ q, update t.registered p true q = true ↔ q = p ∨ t.registered q = true := by
    intro q
    by_cases hq : q = p
    · simp [hq]
    · simp [hq]
  have hinsert := h.insert hlive hnone hexact hinterest t.streams
    (update t.registered p true) h.own ?_ ?_
  · exact hinsert.modify (f := fun h => { h with ploop := true }) rfl rfl rfl
  · intro q hq
    rcases (hregistered q).mp hq with rfl | hq
    · exact hplain
    · exact h.plain q hq
  · intro q
    rw [hregistered, or_assoc]
    rfl

theorem Inv.unregistHandle (h : Inv t) (hlive : t.live p = true)
    (hplain : (t.objs p).connectId = none) :
    Ensures (t.call (.unregistHandle p)) Inv fun _ => True := by
  apply (unregistHandle_spec h.exact p).bind
  rintro t' ⟨hsome, s, hexact, hinterest, rfl⟩
  have hne : ∀ {q id}, t.streams id = some q → q ≠ p := by
    rintro q id hq rfl
    rw [h.own id q hq] at hplain
    cases hplain
  have hregistered : ∀ q, update t.registered p false q = true ↔
      t.registered q = true ∧ q ≠ p := by
    intro q
    by_cases hq : q = p
    · simp [hq]
    · simp [hq]
  have hremove := h.remove (h.mem_held hlive hsome) hexact hinterest t.streams
    (update t.registered p false) h.own ?_ ?_
  · exact hremove.modify (f := fun h => { h with revents := 0 }) rfl rfl rfl
  · intro q hq
    exact h.plain q ((hregistered q).mp hq).1
  · intro q
    rw [hregistered]
    constructor
    · rintro (⟨hq, hqp⟩ | ⟨id, hq⟩)
      · exact ⟨.inl hq, hqp⟩
      · exact ⟨.inr ⟨id, hq⟩, hne hq⟩
    · rintro ⟨hq | hq, hqp⟩
      · exact .inl ⟨hq, hqp⟩
      · exact .inr hq

/-- The next id, while it is no larger than an `int`. -/
theorem Inv.nextId (h : Inv t) (hlen : t.connectIds.length + 1 < 2 ^ 31) :
    t.maxConnectId + 1 = Int.bmod (t.maxConnectId + 1) (2 ^ 32) ∧
    Inv { t with
      maxConnectId := t.maxConnectId + 1
      connectIds := t.connectIds ++ [t.maxConnectId + 1] } := by
  have hcount := h.count
  constructor
  · rw [Int.bmod_eq_of_le]
    · omega
    · omega
  · constructor
    · exact h.own
    · exact h.serves
    · exact h.exact
    · exact h.alive
    · exact h.plain
    · exact h.distinct
    · exact h.single
    · intro q id hq hid
      exact List.mem_append_left _ (h.issued q id hq hid)
    · intro id hid
      rcases List.mem_append.mp hid with hid | hid
      · have hle := h.numbered id hid
        simp only
        omega
      · rw [List.mem_singleton.mp hid]
    · apply h.fresh.append (List.nodup_singleton _)
      rw [List.disjoint_singleton]
      intro hmem
      have hle := h.numbered _ hmem
      omega
    · simp [hcount]

theorem Inv.newConnect (h : Inv t) {fd : Int} (hfree : t.live p = false) (hunused : t.Unused fd)
    (peer : Bool) :
    Ensures (t.newConnect p fd peer) (fun t' => t'.connectIds.length < 2 ^ 31 → Inv t')
      fun _ => True := by
  simp only [Tables.newConnect]
  split
  · refine Ensures.bind (registHandle_spec ?_ p) ?_
    · exact h.exact
    rintro t' ⟨hnone, s, hexact, hinterest, rfl⟩ hlen
    obtain ⟨hid, hnext⟩ := h.nextId (by simpa [Tables.make, Tables.modify] using hlen)
    rw [← hid] at hnone hinterest ⊢
    have hissued : ∀ q, t.live q = true → (t.objs q).connectId ≠ some (t.maxConnectId + 1) := by
      intro q hq hqid
      have hle := h.numbered _ (h.issued q _ hq hqid)
      omega
    have hmake := hnext.make (p := p)
      (o := { fd := fd, events := READ ||| ERROR, connectId := some (t.maxConnectId + 1) })
      hfree hunused ?_
    · have hinsert := hmake.insert ?_ hnone hexact hinterest
        (update t.streams (t.maxConnectId + 1) (some p)) t.registered ?_ hmake.plain ?_
      · exact hinsert.modify (f := fun h => { h with ploop := true }) rfl rfl rfl
      · simp [Tables.make]
      · intro id q hq
        by_cases hidq : id = t.maxConnectId + 1
        · subst hidq
          rw [Function.update_self] at hq
          cases hq
          simp [Tables.make]
        · rw [Function.update_of_ne hidq] at hq
          exact hmake.own id q hq
      · intro q
        have hnoId : ∀ r, t.streams (t.maxConnectId + 1) ≠ some r := fun r hr =>
          hissued r (h.alive r (.inr ⟨_, hr⟩)) (h.own _ r hr)
        constructor
        · rintro (hq | ⟨id, hq⟩)
          · exact .inr (.inl hq)
          · by_cases hidq : id = t.maxConnectId + 1
            · subst hidq
              rw [Function.update_self] at hq
              cases hq
              exact .inl rfl
            · rw [Function.update_of_ne hidq] at hq
              exact .inr (.inr ⟨id, hq⟩)
        · rintro (rfl | hq | ⟨id, hq⟩)
          · exact .inr ⟨t.maxConnectId + 1, Function.update_self _ _ _⟩
          · exact .inl hq
          · refine .inr ⟨id, ?_⟩
            rw [Function.update_of_ne]
            · exact hq
            · rintro rfl
              exact hnoId q hq
    · intro id hidq
      cases hidq
      exact ⟨List.mem_append_right _ (List.mem_singleton_self _), hissued⟩
  · trivial

theorem Inv.closeConnect (h : Inv t) (hlive : t.live p = true) {id : Int}
    (hid : (t.objs p).connectId = some id) : Ensures (t.closeConnect p id) Inv fun _ => True := by
  simp only [Tables.closeConnect]
  split
  · rename_i hsome
    obtain ⟨q, hq⟩ := Option.isSome_iff_exists.mp hsome
    -- the stream found under the id is the one that closes
    obtain rfl : q = p := h.single q p id (h.alive q (.inr ⟨id, hq⟩)) hlive (h.own id q hq) hid
    apply (unregistHandle_spec h.exact q).bind
    rintro t' ⟨-, s, hexact, hinterest, rfl⟩
    have hremove := h.remove (.inr ⟨id, hq⟩) hexact hinterest (update t.streams id none)
      t.registered ?_ h.plain ?_
    · exact hremove.modify (f := fun h => { h with revents := 0 }) rfl rfl rfl
    · intro id' r hr
      rw [Function.update_apply] at hr
      split at hr
      · cases hr
      · exact h.own id' r hr
    · intro r
      constructor
      · rintro (hr | ⟨id', hr⟩)
        · refine ⟨.inl hr, ?_⟩
          rintro rfl
          rw [h.plain r hr] at hid
          cases hid
        · rw [Function.update_apply] at hr
          split at hr
          · cases hr
          · rename_i hne
            refine ⟨.inr ⟨id', hr⟩, ?_⟩
            rintro rfl
            rw [h.own id' r hr] at hid
            exact hne (Option.some.inj hid)
      · rintro ⟨hr | ⟨id', hr⟩, hne⟩
        · exact .inl hr
        · refine .inr ⟨id', ?_⟩
          rw [Function.update_of_ne]
          · exact hr
          · rintro rfl
            rw [hq] at hr
            exact hne (Option.some.inj hr).symm
  · trivial

/-- `enable_event` and `disable_event`. -/
theorem Inv.changeEvents (h : Inv t) (hlive : t.live p = true) (f : Mask → Mask) :
    Ensures (if ((t.modify p fun h => { h with events := f h.events }).objs p).ploop then
        (t.modify p fun h => { h with events := f h.events }).updateEvent p
      else .error .getLoop) Inv fun _ => True := by
  split
  · apply (updateEvent_spec (t := t.modify p _) h.exact p).mono _ fun _ => id
    rintro t' ⟨hsome, s, hexact, hinterest, rfl⟩
    have hobj : (t.modify p fun h => { h with events := f h.events }).objs p =
        { t.objs p with events := f (t.objs p).events } := Function.update_self _ _ _
    rw [hobj] at hsome hinterest
    exact h.setEvents (h.mem_held hlive hsome) hexact hinterest
  · trivial

theorem Inv.release (h : Inv t) (hp : p ∉ t.held) :
    Inv { t with live := update t.live p false } := by
  have hlive : ∀ {q}, update t.live p false q = true → t.live q = true := by
    intro q hq
    rw [Function.update_apply] at hq
    split at hq
    · cases hq
    · exact hq
  constructor
  · exact h.own
  · exact h.serves
  · exact h.exact
  · intro q hq
    have hne : q ≠ p := by
      rintro rfl
      exact hp hq
    change update t.live p false q = true
    rw [Function.update_of_ne hne]
    exact h.alive q hq
  · exact h.plain
  · exact fun q r hq hr => h.distinct q r (hlive hq) (hlive hr)
  · exact fun q r id hq hr => h.single q r id (hlive hq) (hlive hr)
  · exact fun q id hq => h.issued q id (hlive hq)
  · exact h.numbered
  · exact h.fresh
  · exact h.count

/-- One call. -/
theorem Inv.call (h : Inv t) {c : Call} (hlegal : t.Legal c) :
    Ensures (t.call c) (fun t' => t'.connectIds.length < 2 ^ 31 → Inv t') fun _ => True := by
  have hweaken : ∀ {r : Tables.Result}, Ensures r Inv (fun _ => True) →
      Ensures r (fun t' => t'.connectIds.length < 2 ^ 31 → Inv t') fun _ => True :=
    fun hr => hr.mono (fun _ ht _ => ht) fun _ => id
  cases c with
  | make p fd events => exact fun _ => h.make hlegal.1 hlegal.2 fun id hid => by cases hid
  | registHandle p => exact hweaken (h.registHandle hlegal.1 hlegal.2)
  | unregistHandle p => exact hweaken (h.unregistHandle hlegal.1 hlegal.2.1)
  | newConnect p fd peer => exact h.newConnect hlegal.1 hlegal.2 peer
  | closeConnect p =>
    obtain ⟨id, hid⟩ := Option.isSome_iff_exists.mp hlegal.2
    simp only [Tables.call, hid]
    exact hweaken (h.closeConnect hlegal.1 hid)
  | enableEvent p e => exact hweaken (h.changeEvents hlegal fun events => events ||| e)
  | disableEvent p e => exact hweaken (h.changeEvents hlegal fun events => events &&& ~~~e)
  | doSelect fd events =>
    simp only [Tables.call, doSelect]
    split
    · exact fun _ => h.modify rfl rfl rfl
    · trivial
  | release p =>
    refine fun _ => h.release ?_
    rintro (hp | ⟨id, hp⟩)
    · exact hlegal.2 _ ((h.serves.mapped _ p).mpr ⟨.inl hp, rfl⟩)
    · exact hlegal.1 id hp

/-! ### Runs -/

/-- The ids given out stay on record, and the acceptor stays registered. -/
structure Keeps (t t' : Tables) : Prop where
  connectIds : t.connectIds <+: t'.connectIds
  acceptor : t.registered t.acceptor = true → t'.registered t'.acceptor = true

theorem keeps_of_eq (hids : t'.connectIds = t.connectIds) (hacceptor : t'.acceptor = t.acceptor)
    (hregistered : t'.registered = t.registered) : Keeps t t' where
  connectIds := by rw [hids]
  acceptor h := by rwa [hacceptor, hregistered]

theorem onSelect_keeps (f : Poll → Except Abort Poll) :
    Ensures (t.onSelect f) (fun t' => ∃ s, t' = { t with select_ := s }) fun _ => True := by
  apply (onSelect_spec fun s _ => trivial).mono _ fun _ => id
  rintro t' ⟨s, -, rfl⟩
  exact ⟨s, rfl⟩

theorem registHandle_keeps (p : Nat) :
    Ensures (t.registHandle p) (fun t' => t'.connectIds = t.connectIds ∧
      t'.acceptor = t.acceptor ∧ t'.registered = t.registered) fun _ => True := by
  simp only [registHandle]
  split
  · trivial
  · apply (onSelect_keeps _).bind
    rintro t' ⟨s, rfl⟩
    exact ⟨rfl, rfl, rfl⟩

theorem unregistHandle_keeps (p : Nat) :
    Ensures (t.unregistHandle p) (fun t' => t'.connectIds = t.connectIds ∧
      t'.acceptor = t.acceptor ∧ t'.registered = t.registered) fun _ => True := by
  apply (onSelect_keeps _).bind
  rintro t' ⟨s, rfl⟩
  exact ⟨rfl, rfl, rfl⟩

/-- Whatever `close_connect` closes is no longer known to the loop. -/
theorem closeConnect_erases (p : Nat) (id : Int) :
    Ensures (t.closeConnect p id) (fun t' => t'.handles (t.objs p).fd = none) fun _ => True := by
  simp only [Tables.closeConnect]
  split
  · have hunregist : Ensures (t.unregistHandle p)
        (fun t' => t'.handles (t.objs p).fd = none) fun _ => True := by
      apply (onSelect_keeps _).bind
      rintro t' ⟨s, rfl⟩
      exact Function.update_self _ _ _
    exact hunregist.bind fun t' ht' => ht'
  · trivial

theorem changeEvents_keeps (p : Nat) (f : HandleObj → HandleObj) :
    Ensures (if ((t.modify p f).objs p).ploop then (t.modify p f).updateEvent p
      else .error .getLoop) (Keeps t) fun _ => True := by
  split
  · apply (onSelect_keeps _).mono _ fun _ => id
    rintro t' ⟨s, rfl⟩
    exact keeps_of_eq rfl rfl rfl
  · trivial

theorem call_keeps {c : Call} (hlegal : t.Legal c) :
    Ensures (t.call c) (Keeps t) fun _ => True := by
  cases c with
  | make p fd events => exact keeps_of_eq rfl rfl rfl
  | registHandle p =>
    apply (registHandle_keeps p).bind
    rintro t' ⟨hids, hacceptor, hregistered⟩
    refine ⟨by rw [hids], fun h => ?_⟩
    simp only [hacceptor, hregistered, Function.update_apply, h]
    split
    · rfl
    · rfl
  | unregistHandle p =>
    apply (unregistHandle_keeps p).bind
    rintro t' ⟨hids, hacceptor, hregistered⟩
    refine ⟨by rw [hids], fun h => ?_⟩
    simp only [hacceptor, hregistered]
    rwa [Function.update_of_ne (Ne.symm hlegal.2.2)]
  | newConnect p fd peer =>
    simp only [Tables.call, Tables.newConnect]
    split
    · apply (registHandle_keeps p).bind
      rintro t' ⟨hids, hacceptor, hregistered⟩
      refine ⟨?_, fun h => ?_⟩
      · simp only [hids]
        exact List.prefix_append _ _
      · simp only [hacceptor, hregistered]
        exact h
    · trivial
  | closeConnect p =>
    simp only [Tables.call]
    split
    · simp only [Tables.closeConnect]
      split
      · apply (unregistHandle_keeps p).bind
        rintro t' ⟨hids, hacceptor, hregistered⟩
        exact keeps_of_eq hids hacceptor hregistered
      · trivial
    · exact keeps_of_eq rfl rfl rfl
  | enableEvent p e => exact changeEvents_keeps p _
  | disableEvent p e => exact changeEvents_keeps p _
  | doSelect fd events =>
    simp only [Tables.call, doSelect]
    split
    · exact keeps_of_eq rfl rfl rfl
    · trivial
  | release p => exact keeps_of_eq rfl rfl rfl

/-- What holds between two calls, while the ids fit an `int`. -/
def Good (t : Tables) : Prop :=
  t.connectIds.length < 2 ^ 31 → Inv t ∧ t.registered t.acceptor = true

theorem Good.call (h : Good t) {c : Call} (hlegal : t.Legal c) :
    Ensures (t.call c) Good fun _ => True := by
  cases hr : t.call c with
  | error x => trivial
  | ok t' =>
    intro hlen
    have hkeeps := (call_keeps hlegal).of_ok hr
    obtain ⟨hinv, hacceptor⟩ := h (hkeeps.connectIds.length_le.trans_lt hlen)
    exact ⟨(hinv.call hlegal).of_ok hr hlen, hkeeps.acceptor hacceptor⟩

theorem bind_good (p : Nat) (fd : Int) : Ensures (Tables.bind p fd) Good fun _ => True := by
  have hmake : Inv ((init p).make p { fd := fd, events := READ ||| ERROR }) :=
    (inv_init p).make rfl (fun q hq => by cases hq) fun id hid => by cases hid
  cases hr : Tables.bind p fd with
  | error x => trivial
  | ok t' =>
    refine fun _ => ⟨(hmake.registHandle (Function.update_self _ _ _) ?_).of_ok hr, ?_⟩
    · simp [make]
    · have hregist : Ensures (Tables.bind p fd) (fun t' => t'.registered t'.acceptor = true)
          fun _ => True := by
        apply (registHandle_keeps p).bind
        rintro t' ⟨-, hacceptor, -⟩
        change update t'.registered p true t'.acceptor = true
        rw [hacceptor]
        exact Function.update_self _ _ _
      exact hregist.of_ok hr

/-- **Server, event loop and selector agree on who is connected**, after every
call of every run, as long as fewer than `2 ^ 31` connections have been
accepted. -/
theorem tables_agree {fd : Int} (hbind : Tables.bind p fd = .ok t) {calls : List Call}
    (hlegal : Every Tables.call Legal t calls) :
    AllReached Tables.call (fun t => t.connectIds.length < 2 ^ 31 → Agree t) t calls := by
  have hgood := allReached_of_every (fun _ _ h hc => Good.call h hc) ((bind_good p fd).of_ok hbind)
    hlegal
  exact hgood.mono fun t' h hlen => (h hlen).1.agree (h hlen).2

/-- A connection is closed, and the next one gets its descriptor. -/
theorem tables_agree_reused :
    ∃ t, Tables.bind 0 3 = .ok t ∧
      AllReached Tables.call (fun t => t.connectIds.length < 2 ^ 31 → Agree t) t
        [.newConnect 1 4 true, .enableEvent 1 WRITE, .closeConnect 1, .release 1,
          .newConnect 2 4 true] := by
  obtain ⟨t, hbind⟩ : ∃ t, Tables.bind 0 3 = .ok t := ⟨_, rfl⟩
  refine ⟨t, hbind, tables_agree hbind ?_⟩
  cases hbind
  refine ⟨⟨rfl, ?_⟩, ?_⟩
  · intro p hp
    simp [make, init, modify, Function.update_apply] at hp
    subst hp
    decide
  · rintro t' ⟨⟩
    refine ⟨rfl, ?_⟩
    rintro t' ⟨⟩
    refine ⟨⟨rfl, rfl⟩, ?_⟩
    rintro t' ⟨⟩
    refine ⟨⟨?_, ?_⟩, ?_⟩
    · intro id
      simp [make, init, modify, Function.update_apply]
    · intro id
      simp [make, init, modify, Function.update_apply]
    · rintro t' ⟨⟩
      refine ⟨⟨rfl, ?_⟩, fun _ _ => trivial⟩
      intro p hp
      simp [make, init, modify, Function.update_apply] at hp
      have hp0 : p = 0 := hp.2.resolve_left hp.1
      simp [make, init, modify, hp0]

end Tables

end MixServer.Server
