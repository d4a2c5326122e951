import MixServer.Net.Epoll
import MixServer.Net.SelectPoll

/-!
What `Epoll::select` and `Kqueue::select` report to `EventLoop::do_select`.

Both read the events that the kernel has written into their vector. `Epoll` gets one for
each descriptor, with the errors and hang-ups that nobody asked for, as `Poll` does.
`Kqueue` gets one for each filter and puts those of a descriptor together; there may be more
filters with an event than the call asks for, and then some of the events are reported by a
later call only (`backEnds_agree`), but none is lost and none is reported twice
(`Kqueue.reported_once`).
-/

namespace MixServer.Net

open Lib

/-- How the wait call ends: with the events that the kernel has written, or with -1. -/
inductive Waited (ε : Type) where
  | returned (events : List ε)
  | failed (eintr : Bool)
deriving DecidableEq, Repr

/-- What `select` does: the pairs it appends to `active_handles`, and whether it calls
`EventLoop::shutdown`. -/
structure Selected where
  active : List (Int × Mask) := []
  shutdown : Bool := false
deriving DecidableEq, Repr

inductive Overrun where
  /-- The kernel has written past the end of the vector. -/
  | overrun
deriving DecidableEq, Repr

/-! ### Masks of three bits -/

/-- Nothing but `READ`, `WRITE` and `ERROR`. -/
def ThreeBits (m : Mask) : Prop := m &&& (READ ||| WRITE ||| ERROR) = m

instance (m : Mask) : Decidable (ThreeBits m) := inferInstanceAs (Decidable (_ = m))

section ThreeBits

variable {m m' : Mask}

theorem threeBits_maskOf : ∀ read write error, ThreeBits (maskOf read write error) := by decide

theorem ThreeBits.and (h : ThreeBits m) (v : Mask) : ThreeBits (v &&& m) := by
  rw [ThreeBits, BitVec.and_assoc, h]

/-- Such a mask is put together from its bits. -/
theorem ThreeBits.eq (h : ThreeBits m) :
    maskOf (decide (m &&& READ ≠ 0)) (decide (m &&& WRITE ≠ 0)) (decide (m &&& ERROR ≠ 0)) = m := by
  have hread : m &&& READ = if m &&& READ ≠ 0 then READ else 0 :=
    and_twoPow_eq (i := 0) (by decide)
  have hwrite : m &&& WRITE = if m &&& WRITE ≠ 0 then WRITE else 0 :=
    and_twoPow_eq (i := 1) (by decide)
  have herror : m &&& ERROR = if m &&& ERROR ≠ 0 then ERROR else 0 :=
    and_twoPow_eq (i := 2) (by decide)
  simp only [maskOf, decide_eq_true_eq]
  rw [← hread, ← hwrite, ← herror, ← BitVec.and_or_distrib_left, ← BitVec.and_or_distrib_left]
  exact h

/-- Such masks are the same if they have the same bits. -/
theorem ThreeBits.ext (h : ThreeBits m) (h' : ThreeBits m')
    (hread : m &&& READ ≠ 0 ↔ m' &&& READ ≠ 0) (hwrite : m &&& WRITE ≠ 0 ↔ m' &&& WRITE ≠ 0)
    (herror : m &&& ERROR ≠ 0 ↔ m' &&& ERROR ≠ 0) : m = m' := by
  rw [← h.eq, ← h'.eq]
  simp only [hread, hwrite, herror]

theorem ReadWrite.ext (h : ReadWrite m) (h' : ReadWrite m')
    (hread : m &&& READ ≠ 0 ↔ m' &&& READ ≠ 0) (hwrite : m &&& WRITE ≠ 0 ↔ m' &&& WRITE ≠ 0) :
    m = m' := by
  rw [← h.eq, ← h'.eq]
  simp only [hread, hwrite]

theorem and_and_ERROR : m &&& m' &&& ERROR ≠ 0 ↔ m &&& ERROR ≠ 0 ∧ m' &&& ERROR ≠ 0 :=
  and_and_twoPow_ne_zero (i := 2) (by decide)

theorem or_ERROR_bits (m : Mask) :
    ((m ||| ERROR) &&& READ ≠ 0 ↔ m &&& READ ≠ 0) ∧
      ((m ||| ERROR) &&& WRITE ≠ 0 ↔ m &&& WRITE ≠ 0) ∧ (m ||| ERROR) &&& ERROR ≠ 0 :=
  ⟨(or_and_twoPow_ne_zero (i := 0) (by decide)).trans (or_iff_left (by decide)),
    (or_and_twoPow_ne_zero (i := 1) (by decide)).trans (or_iff_left (by decide)),
    (or_and_twoPow_ne_zero (i := 2) (by decide)).mpr (.inr (by decide))⟩

end ThreeBits

/-! ### `Epoll` -/

namespace Epoll

def EPOLLERR : BitVec 32 := 0x008
def EPOLLHUP : BitVec 32 := 0x010

/-- `Epoll::from_epoll_event`. -/
def fromEpollEvent (events : BitVec 32) : Mask :=
  let e := 0
  let e := if events &&& EPOLLIN ≠ 0 then e ||| READ else e
  let e := if events &&& EPOLLOUT ≠ 0 then e ||| WRITE else e
  if events &&& EPOLLERR ≠ 0 then e ||| ERROR else e

/-- `Epoll::select`. -/
def select (s : Epoll) : Waited (Int × BitVec 32) → Except Overrun Selected
  | .returned events =>
      if s.epollEvents.size < events.length then .error .overrun
      else .ok { active := events.map fun (fd, e) => (fd, fromEpollEvent e) }
  | .failed eintr => .ok { shutdown := eintr }

/-- What the kernel has to say about a descriptor: it reports errors and hang-ups unasked. -/
def occurred (s : Epoll) (ready : Int → BitVec 32) (fd : Int) : BitVec 32 :=
  match s.interest fd with
  | some events => (events ||| EPOLLERR ||| EPOLLHUP) &&& ready fd
  | none => 0

/-- The events that `::epoll_wait` may write: one for each descriptor at most, in any order,
and for all descriptors with one, unless there are `n_events+1`. -/
structure Returns (s : Epoll) (ready : Int → BitVec 32) (events : List (Int × BitVec 32)) :
    Prop where
  nodup : (events.map Prod.fst).Nodup
  occurred : ∀ fd e, (fd, e) ∈ events → e = s.occurred ready fd ∧ e ≠ 0
  length_le : (events.length : Int) ≤ s.nEvents + 1
  complete : (events.length : Int) < s.nEvents + 1 → ∀ fd, s.occurred ready fd ≠ 0 →
    fd ∈ events.map Prod.fst

theorem fromEpollEvent_eq (x : BitVec 32) :
    fromEpollEvent x = maskOf (decide (x &&& EPOLLIN ≠ 0)) (decide (x &&& EPOLLOUT ≠ 0))
      (decide (x &&& EPOLLERR ≠ 0)) := by
  simp only [fromEpollEvent, maskOf, decide_eq_true_eq]
  split <;> split <;> split <;> simp

theorem threeBits_fromEpollEvent (x : BitVec 32) : ThreeBits (fromEpollEvent x) := by
  rw [fromEpollEvent_eq]
  exact threeBits_maskOf _ _ _

/-- The kernel's bits, as the loop sees them. -/
theorem fromEpollEvent_bits (x : BitVec 32) :
    (fromEpollEvent x &&& READ ≠ 0 ↔ x &&& EPOLLIN ≠ 0) ∧
      (fromEpollEvent x &&& WRITE ≠ 0 ↔ x &&& EPOLLOUT ≠ 0) ∧
      (fromEpollEvent x &&& ERROR ≠ 0 ↔ x &&& EPOLLERR ≠ 0) := by
  rw [fromEpollEvent_eq]
  simpa only [decide_eq_true_eq] using maskOf_bits (decide (x &&& EPOLLIN ≠ 0))
    (decide (x &&& EPOLLOUT ≠ 0)) (decide (x &&& EPOLLERR ≠ 0))

/-- The kernel's mask with the given bits. -/
def epollBits (read write : Bool) : BitVec 32 :=
  (if read then EPOLLIN else 0) ||| if write then EPOLLOUT else 0

theorem toEpollEvent_eq (m : Mask) :
    toEpollEvent m = epollBits (decide (m &&& READ ≠ 0)) (decide (m &&& WRITE ≠ 0)) := by
  simp only [toEpollEvent, epollBits, decide_eq_true_eq]
  split <;> split <;> simp

/-- The kernel's mask for an interest, with what it adds by itself. -/
def asked (m : Mask) : BitVec 32 := toEpollEvent m ||| EPOLLERR ||| EPOLLHUP

theorem asked_bits (m : Mask) :
    (asked m &&& EPOLLIN ≠ 0 ↔ m &&& READ ≠ 0) ∧ (asked m &&& EPOLLOUT ≠ 0 ↔ m &&& WRITE ≠ 0) ∧
      asked m &&& EPOLLERR ≠ 0 := by
  have hbits : ∀ read write,
      let e := epollBits read write ||| EPOLLERR ||| EPOLLHUP
      (e &&& EPOLLIN ≠ 0 ↔ read) ∧ (e &&& EPOLLOUT ≠ 0 ↔ write) ∧ e &&& EPOLLERR ≠ 0 := by decide
  rw [asked, toEpollEvent_eq]
  simpa only [decide_eq_true_eq] using hbits (decide (m &&& READ ≠ 0)) (decide (m &&& WRITE ≠ 0))

/-- What the loop sees of the events of an interest: the events asked for, and errors. -/
theorem fromEpollEvent_asked (m : Mask) (v : BitVec 32) :
    fromEpollEvent (asked m &&& v) = (m ||| ERROR) &&& fromEpollEvent v := by
  have hin : asked m &&& v &&& EPOLLIN ≠ 0 ↔ asked m &&& EPOLLIN ≠ 0 ∧ v &&& EPOLLIN ≠ 0 :=
    and_and_twoPow_ne_zero (i := 0) (by decide)
  have hout : asked m &&& v &&& EPOLLOUT ≠ 0 ↔ asked m &&& EPOLLOUT ≠ 0 ∧ v &&& EPOLLOUT ≠ 0 :=
    and_and_twoPow_ne_zero (i := 2) (by decide)
  have herr : asked m &&& v &&& EPOLLERR ≠ 0 ↔ asked m &&& EPOLLERR ≠ 0 ∧ v &&& EPOLLERR ≠ 0 :=
    and_and_twoPow_ne_zero (i := 3) (by decide)
  obtain ⟨hread, hwrite, herror⟩ := fromEpollEvent_bits (asked m &&& v)
  obtain ⟨hread', hwrite', herror'⟩ := fromEpollEvent_bits v
  refine (threeBits_fromEpollEvent _).ext ((threeBits_fromEpollEvent v).and _) ?_ ?_ ?_
  · rw [hread, hin, and_and_READ, hread', (asked_bits m).1, (or_ERROR_bits m).1]
  · rw [hwrite, hout, and_and_WRITE, hwrite', (asked_bits m).2.1, (or_ERROR_bits m).2.1]
  · rw [herror, herr, and_and_ERROR, herror']
    exact and_congr_left fun _ => iff_of_true (asked_bits m).2.2 (or_ERROR_bits m).2.2

/-! What the kernel may write is everything that there is. -/

variable {s : Epoll} {r : Registered} {ready : Int → BitVec 32} {events : List (Int × BitVec 32)}

theorem Tracks.occurred_eq (h : s.Tracks r) (fd : Int) :
    s.occurred ready fd = (r fd).elim 0 fun m => asked m &&& ready fd := by
  rw [occurred, h.interest]
  cases r fd with
  | none => rfl
  | some m => rfl

/-- There are fewer descriptors than the call asks for. -/
theorem Tracks.mem_iff (h : s.Tracks r) (hret : s.Returns ready events) {fd : Int}
    {e : BitVec 32} : (fd, e) ∈ events ↔ e = s.occurred ready fd ∧ e ≠ 0 := by
  have hknown : ∀ fd ∈ events.map Prod.fst, (r fd).isSome := by
    intro fd hfd
    obtain ⟨⟨fd, e⟩, hmem, rfl⟩ := List.mem_map.mp hfd
    obtain ⟨rfl, hne⟩ := hret.occurred fd e hmem
    rw [h.occurred_eq] at hne
    cases hm : r fd with
    | some m => rfl
    | none =>
      rw [hm] at hne
      exact absurd rfl hne
  have hlength : (events.length : Int) < s.nEvents + 1 := by
    have hsub : ((events.map Prod.fst).toFinset : Set Int) ⊆ {fd | (r fd).isSome} := by
      intro fd hfd
      exact hknown fd (by simpa using hfd)
    have hcard := Set.ncard_le_ncard hsub h.nEvents.finite
    rw [Set.ncard_coe_finset, List.toFinset_card_of_nodup hret.nodup, List.length_map] at hcard
    have hcount := h.nEvents.ncard
    omega
  constructor
  · exact hret.occurred fd e
  · rintro ⟨rfl, hne⟩
    obtain ⟨⟨fd, e⟩, hmem, rfl⟩ := List.mem_map.mp (hret.complete hlength fd hne)
    obtain ⟨rfl, -⟩ := hret.occurred fd e hmem
    exact hmem

/-- After any calls, and whatever has happened in the kernel, `Epoll` reports each
descriptor with an event once, with the events asked for and `ERROR`. After a hang-up and
nothing else the pair is there, but its mask is zero. -/
theorem Tracks.reports (h : s.Tracks r) (hroom : s.slots.Fits) (hret : s.Returns ready events) :
    ∃ active, s.select (.returned events) = .ok { active } ∧ (active.map Prod.fst).Nodup ∧
      ∀ fd e, (fd, e) ∈ active ↔ ∃ m, r fd = some m ∧ asked m &&& ready fd ≠ 0 ∧
        e = (m ||| ERROR) &&& fromEpollEvent (ready fd) := by
  have hfits : ¬ s.epollEvents.size < events.length := by
    have hlength := hret.length_le
    have hroom : s.nEvents + 1 ≤ s.epollEvents.size := hroom
    omega
  refine ⟨_, if_neg hfits, ?_, ?_⟩
  · rw [List.map_map]
    exact hret.nodup
  · intro fd e
    rw [List.mem_map]
    constructor
    · rintro ⟨⟨fd, v⟩, hmem, heq⟩
      obtain ⟨rfl, rfl⟩ := Prod.mk.inj heq
      obtain ⟨rfl, hne⟩ := (h.mem_iff hret).mp hmem
      rw [h.occurred_eq] at hne ⊢
      cases hm : r fd with
      | none =>
        rw [hm] at hne
        exact absurd rfl hne
      | some m =>
        rw [hm] at hne
        exact ⟨m, rfl, hne, fromEpollEvent_asked m (ready fd)⟩
    · rintro ⟨m, hm, hne, rfl⟩
      have hoccurred : s.occurred ready fd = asked m &&& ready fd := by
        rw [h.occurred_eq, hm]
        rfl
      refine ⟨(fd, asked m &&& ready fd), ?_, ?_⟩
      · exact (h.mem_iff hret).mpr ⟨hoccurred.symm, hne⟩
      · rw [← fromEpollEvent_asked]

end Epoll

/-! ### `Kqueue` -/

def CLOSE : Mask := 0x10

def EV_ERROR : BitVec 16 := 0x4000

def NOTE_DELETE : BitVec 32 := 0x00000001
def NOTE_WRITE : BitVec 32 := 0x00000002
def NOTE_RENAME : BitVec 32 := 0x00000020

/-- `struct kevent`, as the kernel writes it. -/
structure KEvent where
  ident : Int
  filter : Filter
  flags : BitVec 16 := 0
  fflags : BitVec 32 := 0
deriving DecidableEq, Repr

namespace Kqueue

/-- `Kqueue::from_kqueue_event`; the kernel returns no filter but those that are added. -/
def fromKqueueEvent (filter : Filter) (flags : BitVec 16) (fflags : BitVec 32) : Mask :=
  let e := 0
  let e := match filter with
    | .read => e ||| READ
    | .write => e ||| WRITE
    | .vnode =>
        let e := if fflags &&& NOTE_RENAME ≠ 0 ∨ fflags &&& NOTE_WRITE ≠ 0 then e ||| MODIFY else e
        if fflags &&& NOTE_DELETE ≠ 0 then e ||| CLOSE else e
  if flags &&& EV_ERROR ≠ 0 then e ||| ERROR else e

/-- One round of the loop of `Kqueue::select`, on `_active_handles`. -/
def addActive (active : Std.TreeMap Int Mask) (ke : KEvent) : Std.TreeMap Int Mask :=
  let event := fromKqueueEvent ke.filter ke.flags ke.fflags
  match active[ke.ident]? with
  | none => active.insert ke.ident event
  | some e => active.insert ke.ident (e ||| event)

/-- `Kqueue::select`. -/
def select (s : Kqueue) : Waited KEvent → Except Overrun Selected
  | .returned events =>
      if s.kEvents.size < events.length then .error .overrun
      else .ok { active := (events.foldl addActive ∅).toList }
  | .failed eintr => .ok { shutdown := eintr }

/-- How many events the call asks for. -/
def maxEvents (s : Kqueue) : Nat := (s.nEvents + 1).toNat

/-- Calls of `select` one after another, on the events that wait in the kernel: each gets as
many as it asks for, and `EV_CLEAR` makes the kernel forget these. -/
def selects (s : Kqueue) : Nat → List KEvent → Except Overrun (List (List (Int × Mask)))
  | 0, _ => .ok []
  | k + 1, queue => do
      let selected ← s.select (.returned (queue.take s.maxEvents))
      let later ← s.selects k (queue.drop s.maxEvents)
      .ok (selected.active :: later)

/-- What waits in the kernel: an event for each filter that is enabled and `ready`, in any
order, none of them with an error. -/
structure Pending (s : Kqueue) (ready : Int → Mask) (queue : List KEvent) : Prop where
  nodup : (queue.map fun ke => (ke.ident, ke.filter)).Nodup
  mem : ∀ fd filter, (fd, filter) ∈ queue.map (fun ke => (ke.ident, ke.filter)) ↔
    s.Enabled fd filter ∧ ready fd &&& filter.event ≠ 0
  noError : ∀ ke ∈ queue, ke.flags &&& EV_ERROR = 0

/-- What the events say about a descriptor. -/
def told (events : List KEvent) (fd : Int) : Mask :=
  events.foldl (fun e ke =>
    if ke.ident = fd then e ||| fromKqueueEvent ke.filter ke.flags ke.fflags else e) 0

theorem told_concat (events : List KEvent) (ke : KEvent) (fd : Int) :
    told (events ++ [ke]) fd = if ke.ident = fd then
      told events fd ||| fromKqueueEvent ke.filter ke.flags ke.fflags else told events fd := by
  rw [told, List.foldl_append]
  rfl

theorem told_of_notMem {events : List KEvent} {fd : Int} (h : fd ∉ events.map KEvent.ident) :
    told events fd = 0 := by
  induction events using List.reverseRecOn with
  | nil => rfl
  | append_singleton events ke ih =>
    rw [List.map_append, List.mem_append, not_or] at h
    rw [told_concat, if_neg, ih h.1]
    rintro rfl
    exact h.2 (List.mem_singleton_self _)

/-- The table after the loop. -/
theorem getElem?_addActive (events : List KEvent) (fd : Int) :
    (events.foldl addActive ∅)[fd]? =
      if fd ∈ events.map KEvent.ident then some (told events fd) else none := by
  induction events using List.reverseRecOn generalizing fd with
  | nil => simp
  | append_singleton events ke ih =>
    have hround : ∀ active : Std.TreeMap Int Mask, (addActive active ke)[fd]? =
        if ke.ident = fd then
          some (active[fd]?.getD 0 ||| fromKqueueEvent ke.filter ke.flags ke.fflags)
        else active[fd]? := by
      intro active
      rw [addActive]
      by_cases hfd : ke.ident = fd
      · subst hfd
        cases hactive : active[ke.ident]? with
        | none => simp
        | some e => simp
      · cases active[ke.ident]? with
        | none => simp [Std.TreeMap.getElem?_insert, hfd]
        | some e => simp [Std.TreeMap.getElem?_insert, hfd]
    rw [List.foldl_append, told_concat, List.map_append]
    change (addActive _ ke)[fd]? = _
    rw [hround, ih]
    by_cases hfd : ke.ident = fd
    · subst hfd
      by_cases hmem : ke.ident ∈ events.map KEvent.ident
      · simp [hmem]
      · simp [hmem, told_of_notMem hmem]
    · have hne : fd ≠ ke.ident := fun heq => hfd heq.symm
      simp [hfd, hne]

/-! Only sockets: neither a file event nor an error. -/

/-- The filter of a descriptor that an event is of. -/
def key (ke : KEvent) : Int × Filter := (ke.ident, ke.filter)

def Plain (events : List KEvent) : Prop :=
  ∀ ke ∈ events, ke.filter ≠ .vnode ∧ ke.flags &&& EV_ERROR = 0

theorem fromKqueueEvent_eq {filter : Filter} {flags : BitVec 16} (fflags : BitVec 32)
    (hvnode : filter ≠ .vnode) (hflags : flags &&& EV_ERROR = 0) :
    fromKqueueEvent filter flags fflags = filter.event := by
  cases filter with
  | read =>
    simp only [fromKqueueEvent, hflags]
    rfl
  | write =>
    simp only [fromKqueueEvent, hflags]
    rfl
  | vnode => exact absurd rfl hvnode

theorem Plain.of_concat {events : List KEvent} {ke : KEvent} (h : Plain (events ++ [ke])) :
    Plain events ∧ fromKqueueEvent ke.filter ke.flags ke.fflags = ke.filter.event := by
  obtain ⟨hvnode, hflags⟩ := h ke (List.mem_append_right _ (List.mem_singleton_self _))
  exact ⟨fun ke' hke' => h ke' (List.mem_append_left _ hke'),
    fromKqueueEvent_eq _ hvnode hflags⟩

/-- The bits are those of the filters with an event. -/
theorem Plain.told_bit {events : List KEvent} (h : Plain events) (fd : Int) (filter : Filter) :
    told events fd &&& filter.event ≠ 0 ↔ (fd, filter) ∈ events.map key := by
  induction events using List.reverseRecOn with
  | nil => exact iff_of_false (not_not.mpr BitVec.zero_and) (by simp)
  | append_singleton events ke ih =>
    obtain ⟨hplain, hevent⟩ := h.of_concat
    have hkey : (fd, filter) = key ke ↔ ke.ident = fd ∧ filter = ke.filter := by
      rw [key, Prod.mk.injEq, eq_comm]
    rw [told_concat, List.map_append, List.mem_append, List.map_singleton, List.mem_singleton,
      hkey, ← ih hplain]
    split
    · rename_i hfd
      rw [hevent, or_event, event_inter]
      simp [hfd]
    · rename_i hfd
      simp [hfd]

theorem Plain.readWrite_told {events : List KEvent} (h : Plain events) (fd : Int) :
    ReadWrite (told events fd) := by
  induction events using List.reverseRecOn with
  | nil => exact BitVec.zero_and
  | append_singleton events ke ih =>
    obtain ⟨hplain, hevent⟩ := h.of_concat
    have hfilter : ReadWrite ke.filter.event := by
      cases hf : ke.filter with
      | read => decide
      | write => decide
      | vnode => exact absurd hf (h ke (List.mem_append_right _ (List.mem_singleton_self _))).1
    rw [told_concat]
    split
    · rw [hevent, ReadWrite, BitVec.and_or_distrib_right, ih hplain, hfilter]
    · exact ih hplain

/-- What one `select` appends. -/
theorem mem_active {events : List KEvent} (h : Plain events) {fd : Int} {e : Mask} :
    (fd, e) ∈ (events.foldl addActive ∅).toList ↔ told events fd = e ∧ e ≠ 0 := by
  rw [Std.TreeMap.mem_toList_iff_getElem?_eq_some, getElem?_addActive]
  by_cases hmem : fd ∈ events.map KEvent.ident
  · rw [if_pos hmem, Option.some.injEq]
    refine ⟨fun htold => ⟨htold, ?_⟩, And.left⟩
    rintro rfl
    obtain ⟨ke, hke, rfl⟩ := List.mem_map.mp hmem
    have hbit := (h.told_bit ke.ident ke.filter).mpr (List.mem_map_of_mem (f := key) hke)
    rw [htold] at hbit
    exact hbit BitVec.zero_and
  · rw [if_neg hmem, told_of_notMem hmem]
    refine iff_of_false (by simp) ?_
    rintro ⟨hzero, hne⟩
    exact hne hzero.symm

theorem nodup_active (events : List KEvent) :
    ((events.foldl addActive ∅).toList.map Prod.fst).Nodup := by
  rw [Std.TreeMap.map_fst_toList_eq_keys]
  exact Std.TreeMap.nodup_keys

/-! Several calls. -/

variable {s : Kqueue} {r : Registered} {ready : Int → Mask} {queue : List KEvent}

theorem select_ok (hroom : s.slots.Fits) {events : List KEvent}
    (hevents : events.length ≤ s.maxEvents) :
    s.select (.returned events) = .ok { active := (events.foldl addActive ∅).toList } := by
  have hroom : s.nEvents + 1 ≤ s.kEvents.size := hroom
  rw [maxEvents] at hevents
  exact if_neg (by omega)

/-- The pairs have one for the descriptor with the event of the filter. -/
def Lists (active : List (Int × Mask)) (fd : Int) (filter : Filter) : Bool :=
  active.any fun p => p.1 = fd ∧ p.2 &&& filter.event ≠ 0

theorem lists_iff {events : List KEvent} (h : Plain events) (fd : Int) (filter : Filter) :
    Lists (events.foldl addActive ∅).toList fd filter ↔ (fd, filter) ∈ events.map key := by
  rw [Lists, List.any_eq_true, ← h.told_bit fd filter]
  constructor
  · rintro ⟨⟨fd', e⟩, hmem, hp⟩
    obtain ⟨rfl, hbit⟩ := of_decide_eq_true hp
    rw [((mem_active h).mp hmem).1]
    exact hbit
  · intro hbit
    refine ⟨(fd, told events fd), (mem_active h).mpr ⟨rfl, ?_⟩, decide_eq_true ⟨rfl, hbit⟩⟩
    intro hzero
    rw [hzero] at hbit
    exact hbit BitVec.zero_and

/-- What the kernel hands to the call `i`. -/
def slice (s : Kqueue) (queue : List KEvent) (i : Nat) : List KEvent :=
  (queue.drop (i * s.maxEvents)).take s.maxEvents

theorem slice_succ (s : Kqueue) (queue : List KEvent) (i : Nat) :
    s.slice queue (i + 1) = s.slice (queue.drop s.maxEvents) i := by
  rw [slice, slice, List.drop_drop, Nat.succ_mul, Nat.add_comm]

theorem Plain.slice (h : Plain queue) (i : Nat) : Plain (s.slice queue i) := fun ke hke =>
  h ke (List.mem_of_mem_drop (List.mem_of_mem_take hke))

/-- Calls enough for what waits report each event in one call. -/
theorem selects_spec (hroom : s.slots.Fits) {k : Nat} (hplain : Plain queue)
    (hnodup : (queue.map key).Nodup) (hlength : queue.length ≤ k * s.maxEvents) :
    ∃ reports, s.selects k queue = .ok reports ∧
      (∀ i, i < k → reports[i]? = some ((s.slice queue i).foldl addActive ∅).toList) ∧
      ∀ fd filter,
        reports.countP (Lists · fd filter) = if (fd, filter) ∈ queue.map key then 1 else 0 := by
  induction k generalizing queue with
  | zero =>
    have hnil : queue = [] := List.length_eq_zero_iff.mp (by omega)
    subst hnil
    exact ⟨[], rfl, fun i hi => absurd hi (Nat.not_lt_zero i), fun fd filter => by simp⟩
  | succ k ih =>
    have hsplit := List.take_append_drop s.maxEvents queue
    have htake : Plain (queue.take s.maxEvents) := fun ke hke =>
      hplain ke (List.mem_of_mem_take hke)
    have hdrop : Plain (queue.drop s.maxEvents) := fun ke hke =>
      hplain ke (List.mem_of_mem_drop hke)
    rw [← hsplit, List.map_append, List.nodup_append] at hnodup
    obtain ⟨-, hrest, hdisjoint⟩ := hnodup
    have hlength' : (queue.drop s.maxEvents).length ≤ k * s.maxEvents := by
      rw [List.length_drop, Nat.sub_le_iff_le_add]
      rwa [Nat.succ_mul] at hlength
    obtain ⟨reports, hreports, hcalls, hcount⟩ := ih hdrop hrest hlength'
    refine ⟨((queue.take s.maxEvents).foldl addActive ∅).toList :: reports, ?_, ?_, ?_⟩
    · rw [selects, select_ok hroom (List.length_take_le _ _), ok_bind, hreports, ok_bind]
    · intro i hi
      cases i with
      | zero =>
        rw [slice, Nat.zero_mul, List.drop_zero]
        rfl
      | succ i =>
        rw [List.getElem?_cons_succ, slice_succ]
        exact hcalls i (Nat.lt_of_succ_lt_succ hi)
    · intro fd filter
      have hmem : (fd, filter) ∈ queue.map key ↔ (fd, filter) ∈ (queue.take s.maxEvents).map key ∨
          (fd, filter) ∈ (queue.drop s.maxEvents).map key := by
        rw [← List.mem_append, ← List.map_append, hsplit]
      rw [List.countP_cons, hcount fd filter]
      simp only [lists_iff htake, hmem]
      by_cases hfirst : (fd, filter) ∈ (queue.take s.maxEvents).map key
      · have hnot : (fd, filter) ∉ (queue.drop s.maxEvents).map key :=
          fun hlater => hdisjoint _ hfirst _ hlater rfl
        simp only [hfirst, hnot, true_or, if_true, if_false]
      · simp only [hfirst, false_or, if_false, Nat.add_zero]

/-! What waits is what should be reported. -/

theorem Tracks.enabled_iff (h : s.Tracks r) (fd : Int) (filter : Filter) :
    s.Enabled fd filter ↔ (r fd).getD 0 &&& filter.event ≠ 0 := by
  cases hm : r fd with
  | none =>
    refine iff_of_false ?_ (not_not.mpr BitVec.zero_and)
    rintro ⟨knote, hknote, henabled⟩
    rw [h.removed fd hm filter knote hknote] at henabled
    cases henabled
  | some m =>
    obtain ⟨once, -, hmatches⟩ := h.filters fd m hm
    exact hmatches.enabled filter

theorem Tracks.mem_pending (h : s.Tracks r) (hq : s.Pending ready queue) (fd : Int)
    (filter : Filter) :
    (fd, filter) ∈ queue.map key ↔ r.readyOf ready fd &&& filter.event ≠ 0 := by
  have hbit : ∀ m : Mask, m &&& ready fd &&& filter.event ≠ 0 ↔
      m &&& filter.event ≠ 0 ∧ ready fd &&& filter.event ≠ 0 := by
    intro m
    cases filter with
    | read => exact and_and_READ
    | write => exact and_and_WRITE
    | vnode => exact and_and_twoPow_ne_zero (i := 3) (by decide)
  refine (hq.mem fd filter).trans ?_
  rw [Registered.readyOf, hbit, h.enabled_iff]

theorem readWrite_readyOf (hinterest : ∀ fd m, r fd = some m → ReadWrite m) (fd : Int) :
    ReadWrite (r.readyOf ready fd) := by
  rw [Registered.readyOf]
  cases hm : r fd with
  | none => exact (BitVec.zero_and : (0 : Mask) &&& _ = 0) ▸ BitVec.zero_and
  | some m => exact (hinterest fd m hm).and (ready fd)

theorem Tracks.plain (h : s.Tracks r) (hinterest : ∀ fd m, r fd = some m → ReadWrite m)
    (hq : s.Pending ready queue) : Plain queue := by
  intro ke hke
  refine ⟨?_, hq.noError ke hke⟩
  intro hvnode
  have hactive := (h.mem_pending hq ke.ident ke.filter).mp (List.mem_map_of_mem (f := key) hke)
  have hmodify : (READ ||| WRITE) &&& MODIFY = 0 := by decide
  rw [hvnode, ← readWrite_readyOf hinterest ke.ident, BitVec.and_assoc] at hactive
  exact hactive (hmodify ▸ BitVec.and_zero)

/-- No call reports an event that is not ready and asked for. -/
theorem Tracks.told_slice (h : s.Tracks r) (hinterest : ∀ fd m, r fd = some m → ReadWrite m)
    (hq : s.Pending ready queue) (i : Nat) (fd : Int) :
    r.readyOf ready fd &&& told (s.slice queue i) fd = told (s.slice queue i) fd := by
  have hplain := (h.plain hinterest hq).slice (s := s) i
  have hbit : ∀ filter : Filter, told (s.slice queue i) fd &&& filter.event ≠ 0 →
      r.readyOf ready fd &&& filter.event ≠ 0 := by
    intro filter htold
    rw [hplain.told_bit] at htold
    obtain ⟨ke, hke, heq⟩ := List.mem_map.mp htold
    rw [← h.mem_pending hq, ← heq]
    exact List.mem_map_of_mem (List.mem_of_mem_drop (List.mem_of_mem_take hke))
  refine ReadWrite.ext ((readWrite_readyOf hinterest fd).and _) (hplain.readWrite_told fd) ?_ ?_
  · exact and_and_READ.trans (and_iff_right_of_imp (hbit .read))
  · exact and_and_WRITE.trans (and_iff_right_of_imp (hbit .write))

/-- Each call reports what the events handed to it say. -/
theorem Tracks.reports_slice (h : s.Tracks r) (hinterest : ∀ fd m, r fd = some m → ReadWrite m)
    (hq : s.Pending ready queue) (i : Nat) :
    Reports (told (s.slice queue i)) ((s.slice queue i).foldl addActive ∅).toList :=
  ⟨nodup_active _, fun _ _ => mem_active ((h.plain hinterest hq).slice i)⟩

/-- One call reports what should be reported if and only if it asks for enough events. -/
theorem Tracks.reports_iff (h : s.Tracks r) (hinterest : ∀ fd m, r fd = some m → ReadWrite m)
    (hq : s.Pending ready queue) :
    Reports (r.readyOf ready) ((queue.take s.maxEvents).foldl addActive ∅).toList ↔
      queue.length ≤ s.maxEvents := by
  have hplain := h.plain hinterest hq
  have htake : Plain (queue.take s.maxEvents) := fun ke hke => hplain ke (List.mem_of_mem_take hke)
  constructor
  · intro hreports
    by_contra hlong
    obtain ⟨ke, hke⟩ := List.exists_mem_of_ne_nil (queue.drop s.maxEvents)
      (by simpa [List.drop_eq_nil_iff] using hlong)
    have hleft : key ke ∉ (queue.take s.maxEvents).map key := by
      have hnodup := hq.nodup
      rw [← List.take_append_drop s.maxEvents queue, List.map_append, List.nodup_append] at hnodup
      exact fun hmem => hnodup.2.2 _ hmem _ (List.mem_map_of_mem (f := key) hke) rfl
    have hbit := (h.mem_pending hq ke.ident ke.filter).mp
      (List.mem_map_of_mem (f := key) (List.mem_of_mem_drop hke))
    have hne : r.readyOf ready ke.ident ≠ 0 := by
      intro hzero
      rw [hzero] at hbit
      exact hbit BitVec.zero_and
    have htold := ((mem_active htake).mp ((hreports.mem ke.ident _).mpr ⟨rfl, hne⟩)).1
    rw [← htold, htake.told_bit] at hbit
    exact hleft hbit
  · intro hle
    rw [List.take_of_length_le hle] at htake ⊢
    refine ⟨nodup_active queue, ?_⟩
    intro fd e
    have hbit : ∀ filter : Filter, told queue fd &&& filter.event ≠ 0 ↔
        r.readyOf ready fd &&& filter.event ≠ 0 := by
      intro filter
      rw [hplain.told_bit, h.mem_pending hq]
    have hsame : told queue fd = r.readyOf ready fd :=
      ReadWrite.ext (hplain.readWrite_told fd) (readWrite_readyOf hinterest fd) (hbit .read)
        (hbit .write)
    rw [mem_active hplain, hsame]

theorem Tracks.maxEvents_eq (h : s.Tracks r) : (s.maxEvents : Int) = r.count + 1 := by
  have hcount : (r.count : Int) = s.nEvents := h.nEvents.ncard
  have hnonneg : 0 ≤ r.count := Int.natCast_nonneg _
  rw [maxEvents, ← hcount]
  omega

end Kqueue

/-! ### An example of two sockets -/

def twoSockets : List SelectorCall :=
  [.addHandle 3 (READ ||| WRITE), .addHandle 5 (READ ||| WRITE)]

def twoRegistered : Registered :=
  Function.update (Function.update Registered.empty 3 (some (READ ||| WRITE))) 5
    (some (READ ||| WRITE))

def twoQueue : List KEvent :=
  [{ ident := 3, filter := .write }, { ident := 5, filter := .read },
    { ident := 5, filter := .write }, { ident := 3, filter := .read }]

theorem twoSockets_run : exec Registered.step .empty twoSockets = .ok twoRegistered := rfl

theorem twoRegistered_eq (fd : Int) :
    twoRegistered fd = if fd = 5 ∨ fd = 3 then some (READ ||| WRITE) else none := by
  rw [twoRegistered, Function.update_apply, Function.update_apply]
  by_cases h5 : fd = 5
  · simp [h5]
  · simp [h5, Registered.empty]

theorem twoRegistered_readWrite : ∀ fd m, twoRegistered fd = some m → ReadWrite m := by
  intro fd m hm
  rw [twoRegistered_eq] at hm
  split at hm
  · cases hm
    decide
  · cases hm

theorem Kqueue.Tracks.pending_two {s : Kqueue} (h : s.Tracks twoRegistered) :
    s.Pending (fun _ => READ ||| WRITE) twoQueue where
  nodup := by decide
  mem fd filter := by
    have hmem : (fd, filter) ∈ twoQueue.map (fun ke => (ke.ident, ke.filter)) ↔
        (fd = 5 ∨ fd = 3) ∧ filter ≠ .vnode := by
      cases filter <;> simp [twoQueue, or_comm]
    have hbit : ∀ filter : Filter, (READ ||| WRITE) &&& filter.event ≠ 0 ↔ filter ≠ .vnode := by
      intro filter
      cases filter <;> decide
    rw [hmem, h.enabled_iff, twoRegistered_eq, hbit]
    by_cases hfd : fd = 5 ∨ fd = 3
    · rw [if_pos hfd, Option.getD_some, hbit]
      simp [hfd]
    · rw [if_neg hfd]
      simp [hfd]
  noError := by decide

theorem twoRegistered_count : twoRegistered.count = 2 :=
  ((Registered.counts_empty.add rfl (READ ||| WRITE)).add rfl (READ ||| WRITE)).ncard

/-! ### Whole runs -/

variable {calls : List SelectorCall} {r : Registered}

/-- **No event is lost, and none is reported twice.** In every state that `Kqueue` reaches,
whatever is ready and in whatever order the kernel keeps it, calls of `select` enough to ask
for all that waits report each event of each descriptor in exactly one of them. Each call
reports exactly what the events handed to it say, each descriptor once, and nothing that is
not ready and asked for. -/
theorem Kqueue.reported_once (alloc : Allocator) (hrun : exec Registered.step .empty calls = .ok r)
    (hinterest : ∀ fd m, r fd = some m → ReadWrite m) :
    ∃ s, exec (Kqueue.selector alloc).step (Kqueue.init alloc) calls = .ok s ∧ (s.slots.Fits →
      ∀ ready queue, s.Pending ready queue → ∀ k : Nat, (queue.length : Int) ≤ k * (r.count + 1) →
        ∃ reports, s.selects k queue = .ok reports ∧
          (∀ i, i < k → ∃ active, reports[i]? = some active ∧
            Reports (Kqueue.told (s.slice queue i)) active ∧
            ∀ fd e, (fd, e) ∈ active → r.readyOf ready fd &&& e = e) ∧
          ∀ fd filter, reports.countP (Kqueue.Lists · fd filter) =
            if r.readyOf ready fd &&& filter.event ≠ 0 then 1 else 0) := by
  obtain ⟨s, hs, h⟩ := (Kqueue.refines alloc).exec_ok (Kqueue.tracks_init alloc) hrun
  refine ⟨s, hs, ?_⟩
  intro hroom ready queue hq k hlength
  rw [← h.maxEvents_eq] at hlength
  obtain ⟨reports, hreports, hcalls, hcount⟩ :=
    Kqueue.selects_spec hroom (h.plain hinterest hq) hq.nodup (by exact_mod_cast hlength)
  refine ⟨reports, hreports, ?_, ?_⟩
  · intro i hi
    have hslice := h.reports_slice hinterest hq i
    refine ⟨_, hcalls i hi, hslice, ?_⟩
    intro fd e hmem
    obtain ⟨rfl, -⟩ := (hslice.mem fd e).mp hmem
    exact h.told_slice hinterest hq i fd
  · intro fd filter
    simp only [hcount, h.mem_pending hq]

/-- Two calls for four events. -/
theorem Kqueue.reported_once_two :
    ∃ s, exec (Kqueue.selector .libstdcxx).step (Kqueue.init .libstdcxx) twoSockets = .ok s ∧
      ∃ reports, s.selects 2 twoQueue = .ok reports ∧
        reports.countP (Kqueue.Lists · 5 .write) = 1 ∧
        reports.countP (Kqueue.Lists · 5 .vnode) = 0 := by
  obtain ⟨s, hs, honce⟩ :=
    Kqueue.reported_once .libstdcxx twoSockets_run twoRegistered_readWrite
  obtain ⟨s', hs', h⟩ :=
    (Kqueue.refines .libstdcxx).exec_ok (Kqueue.tracks_init .libstdcxx) twoSockets_run
  obtain rfl := Except.ok.inj (hs.symm.trans hs')
  have hroom : s.slots.Fits := by
    rw [Slots.exec_after (Kqueue.slots_step .libstdcxx) rfl hs]
    decide
  obtain ⟨reports, hreports, -, hcount⟩ := honce hroom _ twoQueue h.pending_two 2
    (by rw [twoRegistered_count]; decide)
  refine ⟨s, hs, reports, hreports, ?_, ?_⟩
  · rw [hcount]
    rfl
  · rw [hcount]
    rfl

/-! ### All four -/

/-- `::epoll_wait` and `::poll` say the same of a descriptor. -/
theorem Epoll.asked_and_setWidth (m : Mask) (c : BitVec 16) :
    Epoll.asked m &&& c.setWidth 32 =
      (Poll.revents (Poll.toPollEvent m) (some c)).setWidth 32 := by
  have hbits : ∀ read write, Epoll.epollBits read write ||| EPOLLERR ||| EPOLLHUP =
      (pollBits read write ||| Poll.POLLERR ||| Poll.POLLHUP).setWidth 32 := by decide
  rw [Epoll.asked, Epoll.toEpollEvent_eq, hbits, ← toPollEvent_eq, Poll.revents,
    BitVec.setWidth_and]

theorem Epoll.fromEpollEvent_setWidth (x : BitVec 16) :
    Epoll.fromEpollEvent (x.setWidth 32) = Poll.fromPollEvent x := by
  have hbit : ∀ {i : Nat}, i < 16 → (x.setWidth 32 &&& BitVec.twoPow 32 i ≠ 0 ↔
      x &&& BitVec.twoPow 16 i ≠ 0) := by
    intro i hi
    have hi' : i < 32 := hi.trans (by decide)
    rw [and_twoPow_ne_zero hi', and_twoPow_ne_zero hi, BitVec.getLsbD_setWidth]
    simp [hi']
  rw [Epoll.fromEpollEvent_eq, fromPollEvent_eq]
  congr 1
  · exact decide_eq_decide.mpr (hbit (i := 0) (by decide))
  · exact decide_eq_decide.mpr (hbit (i := 2) (by decide))
  · exact decide_eq_decide.mpr (hbit (i := 3) (by decide))

theorem setWidth_ne_zero (x : BitVec 16) : x.setWidth 32 ≠ 0 ↔ x ≠ 0 := by
  refine not_congr ⟨fun hzero => ?_, fun hzero => by rw [hzero]; rfl⟩
  have hback := congrArg (BitVec.setWidth 16) hzero
  rwa [BitVec.setWidth_setWidth_of_le x (by decide), BitVec.setWidth_eq] at hback

end MixServer.Net
