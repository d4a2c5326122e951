import MixServer.Server.TablesAgree

/-!
`EventLoop::clear` (`net/eventloop.cpp`), which closes the handles that are left
when the loop ends.

It walks the map of handles while the handles close themselves. A `TcpStream`
with nothing left to send unregisters itself in `close`, so the element the walk
stands on is erased; advancing from there has no defined meaning. `clear_iff` says
that `clear` closes every handle once, and is defined at all, exactly when no
registered stream has an empty write buffer.
-/

namespace MixServer.Server

open Lib Net
open Function (update)

/-- The handles that are no `TcpStream`. -/
inductive OtherKind where
  | acceptor
  | inotify
  | file
deriving DecidableEq, Repr

/-- Why `clear` does not return. -/
inductive ClearStop where
  /-- An assertion failed in `close`. -/
  | assertion (x : TableAbort)
  /-- The iterator's element has been erased: undefined behaviour. -/
  | erased
  /-- The loop was cut off. -/
  | outOfFuel
deriving DecidableEq, Repr

/-- A loop that is being cleared. `fds` lists the descriptors of the process in
the order of the map; `pwriteBuf`, `closing` and `closed` are fields of the
`TcpStream` at an address, and `kind` tells the other handles apart. `closes`
records the calls of `close`. -/
structure Shutdown where
  tables : Tables
  fds : List Int
  pwriteBuf : Nat → Bytes
  closing : Nat → Bool
  closed : Nat → Bool
  kind : Nat → OtherKind
  shutdown : Bool
  closedFds : List Int
  closes : List Nat

namespace Shutdown

abbrev Result := Except ClearStop Shutdown

variable (s : Shutdown)

/-! ### `close` -/

/-- `TcpStream::close`. -/
def closeStream (p : Nat) (id : Int) : Result :=
  let s := { s with closing := update s.closing p true }
  if s.pwriteBuf p = [] then
    match s.tables.closeConnect p id with
    | .ok t => .ok { s with tables := t, closed := update s.closed p true }
    | .error x => .error (.assertion x)
  else
    .ok s

/-- `close` of the handle at address `p`: that of a `TcpStream`, `Acceptor`,
`iNotifyHandle` or `FileHandle`. -/
def close (p : Nat) : Result :=
  let s := { s with closes := s.closes ++ [p] }
  match (s.tables.objs p).connectId with
  | some id => s.closeStream p id
  | none =>
      match s.kind p with
      | .acceptor => .ok { s with shutdown := true }
      | .inotify => .ok s
      | .file => .ok { s with closedFds := s.closedFds ++ [(s.tables.objs p).fd] }

/-! ### The walk -/

/-- The elements of `EventLoop::handles`, in the order of the map. -/
def elements : List (Int × Nat) :=
  s.fds.filterMap fun fd => (s.tables.handles fd).map fun p => (fd, p)

/-- `handles.begin()`; an iterator is the key it stands on, if any. -/
def first : Option Int := s.elements.head?.map Prod.fst

/-- `++it`. -/
def next (fd : Int) : Except ClearStop (Option Int) :=
  if (s.tables.handles fd).isSome then
    .ok ((s.elements.find? fun e => decide (fd < e.1)).map Prod.fst)
  else
    .error .erased

/-- The loop of `EventLoop::clear`, for at most `n` turns. -/
def clearLoop (s : Shutdown) (it : Option Int) : Nat → Result
  | 0 =>
      match it with
      | none => .ok s
      | some _ => .error .outOfFuel
  | n + 1 =>
      match it with
      | none => .ok s
      | some fd =>
          match s.tables.handles fd with
          | none => .error .erased
          | some p => do
              let s ← s.close p
              let it ← s.next fd
              clearLoop s it n

/-- `EventLoop::clear`, but for the timer queue. -/
def clear : Result := s.clearLoop s.first s.elements.length

/-- `clear` returns, and has called `close` once on every handle that was
registered at its start, and on no other. -/
def ClosesOnce : Prop :=
  ∃ s', s.clear = .ok s' ∧
    ∀ p, s'.closes.count p = if p ∈ s.elements.map Prod.snd then 1 else 0

/-- A loop at its end: the handles are registered under their descriptors, and
nothing has been closed yet. -/
structure AtEnd : Prop where
  serves : Tables.Serves s.tables.held s.tables.objs s.tables.handles s.tables.select_.interest
  sorted : s.fds.Pairwise (· < ·)
  listed : ∀ fd, (s.tables.handles fd).isSome = true → fd ∈ s.fds
  fresh : s.closes = []

/-- The handle at `p` is a stream with nothing left to send. -/
def Drained (p : Nat) : Prop := (s.tables.objs p).connectId.isSome = true ∧ s.pwriteBuf p = []

variable {s} {p : Nat} {fd : Int}

/-! ### What `close` does to the map -/

/-- What `close` leaves alone where it erases nothing. -/
structure Same (s s' : Shutdown) (p : Nat) : Prop where
  tables : s'.tables = s.tables
  fds : s'.fds = s.fds
  pwriteBuf : s'.pwriteBuf = s.pwriteBuf
  closes : s'.closes = s.closes ++ [p]

theorem close_same (h : ¬ s.Drained p) : ∃ s', s.close p = .ok s' ∧ Same s s' p := by
  simp only [close]
  cases hid : (s.tables.objs p).connectId with
  | some id =>
    have hbuf : s.pwriteBuf p ≠ [] := fun hnil => h ⟨by rw [hid]; rfl, hnil⟩
    simp only [closeStream, if_neg hbuf]
    exact ⟨_, rfl, rfl, rfl, rfl, rfl⟩
  | none =>
    cases s.kind p with
    | acceptor => exact ⟨_, rfl, rfl, rfl, rfl, rfl⟩
    | inotify => exact ⟨_, rfl, rfl, rfl, rfl, rfl⟩
    | file => exact ⟨_, rfl, rfl, rfl, rfl, rfl⟩

/-- A drained stream erases its own element. -/
theorem close_drained (h : s.Drained p) :
    Ensures (s.close p) (fun s' => s'.tables.handles (s.tables.objs p).fd = none)
      fun _ => True := by
  obtain ⟨id, hid⟩ := Option.isSome_iff_exists.mp h.1
  have herases := s.tables.closeConnect_erases p id
  simp only [close, hid, closeStream, if_pos h.2]
  cases hclose : s.tables.closeConnect p id with
  | ok t => exact herases.of_ok hclose
  | error x => trivial

theorem Same.elements {s' : Shutdown} (h : Same s s' p) : s'.elements = s.elements := by
  simp only [Shutdown.elements, h.tables, h.fds]

theorem Same.drained {s' : Shutdown} (h : Same s s' p) (q : Nat) :
    s'.Drained q ↔ s.Drained q := by
  rw [Drained, Drained, h.tables, h.pwriteBuf]

/-! ### The elements -/

theorem mem_elements {e : Int × Nat} :
    e ∈ s.elements ↔ e.1 ∈ s.fds ∧ s.tables.handles e.1 = some e.2 := by
  simp only [elements, List.mem_filterMap, Option.map_eq_some_iff]
  constructor
  · rintro ⟨fd, hfd, p, hp, rfl⟩
    exact ⟨hfd, hp⟩
  · rintro ⟨hfd, hp⟩
    exact ⟨e.1, hfd, e.2, hp, rfl⟩

theorem AtEnd.elements_sorted (h : s.AtEnd) : s.elements.Pairwise fun e e' => e.1 < e'.1 := by
  apply h.sorted.filterMap
  intro fd fd' hlt e he e' he'
  obtain ⟨p, -, rfl⟩ := Option.map_eq_some_iff.mp he
  obtain ⟨p', -, rfl⟩ := Option.map_eq_some_iff.mp he'
  exact hlt

theorem AtEnd.nodup (h : s.AtEnd) : (s.elements.map Prod.snd).Nodup := by
  apply List.pairwise_map.mpr
  apply h.elements_sorted.imp_of_mem
  intro e e' he he' hlt heq
  have hfd := ((h.serves.mapped _ _).mp (mem_elements.mp he).2).2
  have hfd' := ((h.serves.mapped _ _).mp (mem_elements.mp he').2).2
  rw [← hfd, ← hfd', heq] at hlt
  exact lt_irrefl _ hlt

theorem next_eq (pre : List (Int × Nat)) {rest : List (Int × Nat)}
    (helements : s.elements = pre ++ (fd, p) :: rest)
    (hsorted : s.elements.Pairwise fun e e' => e.1 < e'.1) :
    s.next fd = .ok (rest.head?.map Prod.fst) := by
  have hmem : (fd, p) ∈ s.elements := by
    rw [helements]
    simp
  rw [helements, List.pairwise_append, List.pairwise_cons] at hsorted
  obtain ⟨-, ⟨hafter, -⟩, hbefore⟩ := hsorted
  have hskip : (pre ++ [(fd, p)]).find? (fun e => decide (fd < e.1)) = none := by
    apply List.find?_eq_none.mpr
    intro e he
    rcases List.mem_append.mp he with he | he
    · have hlt := hbefore e he (fd, p) List.mem_cons_self
      simpa using hlt.le
    · simp [List.mem_singleton.mp he]
  have hfind : rest.find? (fun e => decide (fd < e.1)) = rest.head? := by
    cases rest with
    | nil => rfl
    | cons e rest =>
      have hlt := hafter e List.mem_cons_self
      simp [hlt]
  have hsplit : pre ++ (fd, p) :: rest = (pre ++ [(fd, p)]) ++ rest := by simp
  rw [next, (mem_elements.mp hmem).2, helements, hsplit, List.find?_append, hskip, hfind]
  rfl

/-! ### The walk -/

/-- Where no handle is a drained stream, the walk closes each in its turn. -/
theorem clearLoop_closes (pre : List (Int × Nat)) {rest : List (Int × Nat)}
    (helements : s.elements = pre ++ rest)
    (hsorted : s.elements.Pairwise fun e e' => e.1 < e'.1)
    (hunsent : ∀ e ∈ rest, ¬ s.Drained e.2) :
    ∃ s', s.clearLoop (rest.head?.map Prod.fst) rest.length = .ok s' ∧
      s'.closes = s.closes ++ rest.map Prod.snd := by
  induction rest generalizing s pre with
  | nil => exact ⟨s, rfl, by simp⟩
  | cons e rest ih =>
    obtain ⟨fd, p⟩ := e
    have hmem : (fd, p) ∈ s.elements := by
      rw [helements]
      simp
    obtain ⟨s', hclose, hsame⟩ := close_same (hunsent (fd, p) List.mem_cons_self)
    have helements' : s'.elements = (pre ++ [(fd, p)]) ++ rest := by
      rw [hsame.elements, helements]
      simp
    have hsorted' : s'.elements.Pairwise fun e e' => e.1 < e'.1 := by
      rw [hsame.elements]
      exact hsorted
    have hnext : s'.next fd = .ok (rest.head?.map Prod.fst) := by
      apply next_eq (p := p) pre _ hsorted'
      rw [hsame.elements, helements]
    obtain ⟨s'', hrest, hcloses⟩ := ih _ helements' hsorted' fun e he => by
      rw [hsame.drained]
      exact hunsent e (List.mem_cons_of_mem _ he)
    refine ⟨s'', ?_, ?_⟩
    · simp only [List.head?_cons, Option.map_some, List.length_cons, clearLoop,
        (mem_elements.mp hmem).2, hclose, ok_bind, hnext]
      exact hrest
    · rw [hcloses, hsame.closes]
      simp

/-- At a drained stream the walk ends, or is cut off before. -/
theorem clearLoop_drained (pre : List (Int × Nat)) {rest : List (Int × Nat)}
    (helements : s.elements = pre ++ rest)
    (hsorted : s.elements.Pairwise fun e e' => e.1 < e'.1)
    (hkeys : ∀ e ∈ s.elements, (s.tables.objs e.2).fd = e.1)
    (hdrained : ∃ e ∈ rest, s.Drained e.2) (n : Nat) (s' : Shutdown) :
    s.clearLoop (rest.head?.map Prod.fst) n ≠ .ok s' := by
  induction rest generalizing s pre n with
  | nil =>
    obtain ⟨e, he, -⟩ := hdrained
    cases he
  | cons e rest ih =>
    obtain ⟨fd, p⟩ := e
    have hmem : (fd, p) ∈ s.elements := by
      rw [helements]
      simp
    cases n with
    | zero => simp [clearLoop]
    | succ n =>
      simp only [List.head?_cons, Option.map_some, clearLoop, (mem_elements.mp hmem).2]
      by_cases hp : s.Drained p
      · have herases := close_drained hp
        cases hclose : s.close p with
        | error x => simp
        | ok s₁ =>
          have hgone := herases.of_ok hclose
          have hkey : (s.tables.objs p).fd = fd := hkeys _ hmem
          rw [hkey] at hgone
          simp [next, hgone]
      · obtain ⟨s₁, hclose, hsame⟩ := close_same hp
        have hsorted' : s₁.elements.Pairwise fun e e' => e.1 < e'.1 := by
          rw [hsame.elements]
          exact hsorted
        have hnext : s₁.next fd = .ok (rest.head?.map Prod.fst) := by
          apply next_eq (p := p) pre _ hsorted'
          rw [hsame.elements, helements]
        rw [hclose, ok_bind, hnext, ok_bind]
        apply ih (pre ++ [(fd, p)]) _ hsorted'
        · intro e he
          rw [hsame.tables]
          rw [hsame.elements] at he
          exact hkeys e he
        · obtain ⟨e, he, hdrained⟩ := hdrained
          refine ⟨e, ?_, (hsame.drained _).mpr hdrained⟩
          rcases List.mem_cons.mp he with rfl | he
          · exact absurd hdrained hp
          · exact he
        · rw [hsame.elements, helements]
          simp

/-- **Shutdown closes every handle exactly once**, and without advancing from an
erased element, exactly when no registered stream has an empty write buffer. -/
theorem clear_iff (h : s.AtEnd) :
    s.ClosesOnce ↔ ∀ fd p, s.tables.handles fd = some p →
      (s.tables.objs p).connectId.isSome = true → s.pwriteBuf p ≠ [] := by
  have hmem : ∀ {fd p}, s.tables.handles fd = some p → (fd, p) ∈ s.elements := by
    intro fd p hp
    exact mem_elements.mpr ⟨h.listed fd (by rw [hp]; rfl), hp⟩
  constructor
  · rintro ⟨s', hclear, -⟩ fd p hp hstream hnil
    refine clearLoop_drained [] rfl h.elements_sorted ?_ ?_ _ s' hclear
    · intro e he
      exact ((h.serves.mapped _ _).mp (mem_elements.mp he).2).2
    · exact ⟨(fd, p), hmem hp, hstream, hnil⟩
  · intro hunsent
    obtain ⟨s', hclear, hcloses⟩ := clearLoop_closes (s := s) [] rfl
      h.elements_sorted fun e he hdrained =>
        hunsent e.1 e.2 (mem_elements.mp he).2 hdrained.1 hdrained.2
    refine ⟨s', hclear, ?_⟩
    intro p
    rw [hcloses, h.fresh, List.nil_append]
    split
    · rename_i hp
      exact List.count_eq_one_of_mem h.nodup hp
    · rename_i hp
      exact List.count_eq_zero.mpr hp

/-- The end of a server on descriptor 3 that has accepted descriptor 4. -/
def ended (t : Tables) (unsent : Bytes) : Shutdown where
  tables := t
  fds := [3, 4]
  pwriteBuf _ := unsent
  closing _ := false
  closed _ := false
  kind _ := .acceptor
  shutdown := true
  closedFds := []
  closes := []

theorem ended_atEnd {t t' : Tables} (hbind : Tables.bind 0 3 = .ok t)
    (haccept : t.call (.newConnect 1 4 true) = .ok t') (unsent : Bytes) :
    t.Legal (.newConnect 1 4 true) ∧ (ended t' unsent).AtEnd := by
  have hlegal : t.Legal (.newConnect 1 4 true) := by
    cases hbind
    refine ⟨rfl, ?_⟩
    intro p hp
    simp [Tables.make, Tables.init, Tables.modify, Function.update_apply] at hp
    subst hp
    decide
  have hsorted : [(3 : Int), 4].Pairwise (· < ·) := by decide
  refine ⟨hlegal, ?_, hsorted, ?_, rfl⟩
  · have hgood := ((Tables.bind_good 0 3).of_ok hbind).call hlegal
    cases hbind
    cases haccept
    exact (hgood (by decide)).1.serves
  · intro fd hfd
    cases hbind
    cases haccept
    by_contra hnot
    simp [ended] at hnot
    simp [ended, Tables.make, Tables.init, Tables.modify, hnot] at hfd

/-- The one connection has unsent bytes. -/
theorem clear_iff_unsent :
    ∃ t t', Tables.bind 0 3 = .ok t ∧ t.call (.newConnect 1 4 true) = .ok t' ∧
      ((ended t' [7]).ClosesOnce ↔ ∀ fd p, t'.handles fd = some p →
        (t'.objs p).connectId.isSome = true → (ended t' [7]).pwriteBuf p ≠ []) :=
  ⟨_, _, rfl, rfl, clear_iff (ended_atEnd rfl rfl [7]).2⟩

/-- The one connection has nothing to send when the server shuts down. -/
theorem clear_iff_idle :
    ¬ ∀ (t t' : Tables) (calls : List Call) (s : Shutdown), Tables.bind 0 3 = .ok t →
      Every Tables.call Tables.Legal t calls → exec Tables.call t calls = .ok t' →
      s.tables = t' → s.AtEnd → s.ClosesOnce := by
  intro h
  obtain ⟨t, hbind⟩ : ∃ t, Tables.bind 0 3 = .ok t := ⟨_, rfl⟩
  obtain ⟨t', haccept⟩ : ∃ t', t.call (.newConnect 1 4 true) = .ok t' := by
    cases hbind
    exact ⟨_, rfl⟩
  obtain ⟨hlegal, hend⟩ := ended_atEnd hbind haccept []
  have hrun : exec Tables.call t [.newConnect 1 4 true] = .ok t' := by
    rw [exec_singleton, haccept]
  obtain ⟨s', hclear, -⟩ := h t t' [.newConnect 1 4 true] (ended t' []) hbind
    ⟨hlegal, fun _ _ => trivial⟩ hrun rfl hend
  have herased : (ended t' []).clear = .error .erased := by
    cases hbind
    cases haccept
    rfl
  rw [herased] at hclear
  cases hclear

end Shutdown

end MixServer.Server
