import MixServer.Lib.Bits
import MixServer.Net.Select

/-!
What `Poll::select` and `Select::select` report to `EventLoop::do_select`.

When the wait call returns, `Select` reports what is ready, restricted to the interest.
`::poll` besides reports errors and hang-ups that nobody asked for, so `Poll` does the same
only while there are none of these. When the call fails (a signal is enough), `Poll` reports
nothing, since the return value counts the entries to read. `Select` only logs the return
value and tests the copies of its sets, which the failed call has left as they were:
everything that is watched is reported.
-/

namespace MixServer.Net

open Lib

namespace Poll

def POLLPRI : BitVec 16 := 0x002
def POLLERR : BitVec 16 := 0x008
def POLLHUP : BitVec 16 := 0x010
def POLLNVAL : BitVec 16 := 0x020

end Poll

/-- What holds of a descriptor, as bits of `::poll`; `none` for one that is not open. -/
abbrev Condition := Option (BitVec 16)

/-- The outcome of the wait call. -/
inductive Wait where
  /-- It returns, and this holds of the descriptors. -/
  | ready (cond : Int → Condition)
  | timeout
  /-- It returns -1. -/
  | failed

/-- What a descriptor is ready for: a hang-up or an error lets `::read` return at once, and an
error `::write`. -/
def readiness : Condition → Mask
  | some c =>
      (if c &&& (Poll.POLLIN ||| Poll.POLLHUP ||| Poll.POLLERR) ≠ 0 then READ else 0) |||
        (if c &&& (Poll.POLLOUT ||| Poll.POLLERR) ≠ 0 then WRITE else 0) |||
        if c &&& Poll.POLLPRI ≠ 0 then ERROR else 0
  | none => 0

namespace Poll

/-- `Poll::from_poll_event`. -/
def fromPollEvent (events : BitVec 16) : Mask :=
  let e := 0
  let e := if events &&& POLLIN ≠ 0 then e ||| READ else e
  let e := if events &&& POLLOUT ≠ 0 then e ||| WRITE else e
  if events &&& POLLERR ≠ 0 then e ||| ERROR else e

/-- The `revents` that `::poll` writes next to `events`: errors, hang-ups and a descriptor
that is not open are reported unasked. -/
def revents (events : BitVec 16) : Condition → BitVec 16
  | some c => (events ||| POLLERR ||| POLLHUP) &&& c
  | none => POLLNVAL

/-- `::poll`: what it returns, and the vector with the `revents` written next to
each entry. -/
def wait (pollfds : List PollFd) : Wait → Int × List (PollFd × BitVec 16)
  | .ready cond =>
      let pollfds := pollfds.map fun p => (p, revents p.events (cond p.fd))
      (pollfds.countP fun p => p.2 ≠ 0, pollfds)
  | .timeout => (0, pollfds.map fun p => (p, 0))
  | .failed => (-1, pollfds.map fun p => (p, 0))

/-- The loop of `Poll::poll`, which ends when `enums` entries have been found. -/
def scan : List (PollFd × BitVec 16) → Nat → List (Int × Mask)
  | [], _ => []
  | _ :: _, 0 => []
  | (p, revents) :: pollfds, enums + 1 =>
      if revents = 0 then scan pollfds (enums + 1)
      else (p.fd, fromPollEvent revents) :: scan pollfds enums

/-- `Poll::poll`: the pairs it appends to `active_handles`. -/
def poll (s : Poll) (w : Wait) : List (Int × Mask) :=
  let (n, pollfds) := wait s.pollfds w
  if 0 < n then scan pollfds n.toNat else []

/-- `Poll::select`. -/
def select (s : Poll) (w : Wait) : List (Int × Mask) := s.poll w

end Poll

namespace Select

/-- The bits of an `fd_set`. -/
def FD_SETSIZE : Int := 1024

/-- The outcome for `::select`, which fails if a descriptor of its sets is not open. -/
def outcome (s : Select) : Wait → Wait
  | .ready cond =>
      if ∃ fd ∈ s.readFds ∪ s.writeFds ∪ s.errorFds, fd < s.maxFds + 1 ∧ cond fd = none then
        .failed
      else .ready cond
  | w => w

/-- `::select` on one of the three sets: a failed call leaves it as it is. -/
def wait (nfds : Int) (e : Mask) (fds : Finset Int) : Wait → Finset Int
  | .ready cond => fds.filter fun fd => fd < nfds ∧ readiness (cond fd) &&& e ≠ 0
  | .timeout => ∅
  | .failed => fds

/-- `Select::select`: the pairs it appends to `active_fds`. -/
def select (s : Select) (w : Wait) : List (Int × Mask) :=
  let w := s.outcome w
  let rfds := wait (s.maxFds + 1) READ s.readFds w
  let wfds := wait (s.maxFds + 1) WRITE s.writeFds w
  let efds := wait (s.maxFds + 1) ERROR s.errorFds w
  s.allFds.filterMap fun fd =>
    let revents := 0
    let revents := if fd ∈ rfds then revents ||| READ else revents
    let revents := if fd ∈ wfds then revents ||| WRITE else revents
    let revents := if fd ∈ efds then revents ||| ERROR else revents
    if revents ≠ 0 then some (fd, revents) else none

/-- `FD_SET` and `FD_ISSET` of the descriptors stay inside the sets. -/
def InSets (s : Select) : Prop := ∀ fd ∈ s.allFds, 0 ≤ fd ∧ fd < FD_SETSIZE

end Select

/-! ### What should be reported -/

/-- The events of a descriptor that are asked for and ready. -/
def Registered.readyOf (r : Registered) (ready : Int → Mask) (fd : Int) : Mask :=
  (r fd).getD 0 &&& ready fd

/-- The events of a descriptor that the outcome of the wait call makes active. -/
def Registered.active (r : Registered) (w : Wait) : Int → Mask :=
  match w with
  | .ready cond => r.readyOf fun fd => readiness (cond fd)
  | _ => fun _ => 0

/-- The pairs are the active descriptors with their events, each once. -/
structure Reports (active : Int → Mask) (pairs : List (Int × Mask)) : Prop where
  nodup : (pairs.map Prod.fst).Nodup
  mem : ∀ fd e, (fd, e) ∈ pairs ↔ active fd = e ∧ e ≠ 0

theorem reports_nil : Reports (fun _ => 0) [] where
  nodup := List.nodup_nil
  mem fd e := by
    constructor
    · intro hmem
      cases hmem
    · rintro ⟨rfl, hne⟩
      exact absurd rfl hne

/-- Interest in `READ` and `WRITE` only. -/
def ReadWrite (m : Mask) : Prop := m &&& (READ ||| WRITE) = m

instance (m : Mask) : Decidable (ReadWrite m) := inferInstanceAs (Decidable (_ = m))

section Masks

variable {m v : Mask}

theorem ReadWrite.and (h : ReadWrite m) (v : Mask) : ReadWrite (m &&& v) := by
  rw [ReadWrite, BitVec.and_assoc, BitVec.and_comm v, ← BitVec.and_assoc, h]

/-- Such a mask is put together from its two bits. -/
theorem ReadWrite.eq (h : ReadWrite m) :
    (if m &&& READ ≠ 0 then READ else 0) ||| (if m &&& WRITE ≠ 0 then WRITE else 0) = m := by
  have hread : m &&& READ = if m &&& READ ≠ 0 then READ else 0 :=
    and_twoPow_eq (i := 0) (by decide)
  have hwrite : m &&& WRITE = if m &&& WRITE ≠ 0 then WRITE else 0 :=
    and_twoPow_eq (i := 1) (by decide)
  rw [← hread, ← hwrite, ← BitVec.and_or_distrib_left]
  exact h

theorem ReadWrite.error (h : ReadWrite m) : m &&& ERROR = 0 := by
  rw [← h, BitVec.and_assoc]
  exact BitVec.and_zero

theorem and_and_READ : m &&& v &&& READ ≠ 0 ↔ m &&& READ ≠ 0 ∧ v &&& READ ≠ 0 :=
  and_and_twoPow_ne_zero (i := 0) (by decide)

theorem and_and_WRITE : m &&& v &&& WRITE ≠ 0 ↔ m &&& WRITE ≠ 0 ∧ v &&& WRITE ≠ 0 :=
  and_and_twoPow_ne_zero (i := 1) (by decide)

/-- `READ`, `WRITE` and `ERROR` where asked for. -/
def maskOf (read write error : Bool) : Mask :=
  (if read then READ else 0) ||| (if write then WRITE else 0) ||| if error then ERROR else 0

theorem maskOf_bits : ∀ read write error,
    (maskOf read write error &&& READ ≠ 0 ↔ read) ∧
      (maskOf read write error &&& WRITE ≠ 0 ↔ write) ∧
      (maskOf read write error &&& ERROR ≠ 0 ↔ error) := by decide

/-- A mask of interest, from its two bits. -/
theorem ReadWrite.eq_maskOf (h : ReadWrite m) :
    m = maskOf (decide (m &&& READ ≠ 0)) (decide (m &&& WRITE ≠ 0)) false := by
  refine Eq.trans h.eq.symm ?_
  simp only [maskOf, decide_eq_true_eq]
  exact BitVec.or_zero.symm

/-- What is asked for and ready. -/
theorem ReadWrite.and_eq_maskOf (h : ReadWrite m) (v : Mask) :
    m &&& v = maskOf (decide (m &&& READ ≠ 0 ∧ v &&& READ ≠ 0))
      (decide (m &&& WRITE ≠ 0 ∧ v &&& WRITE ≠ 0)) false := by
  refine (h.and v).eq_maskOf.trans ?_
  simp only [and_and_READ, and_and_WRITE]

theorem fromPollEvent_eq (x : BitVec 16) :
    Poll.fromPollEvent x = maskOf (decide (x &&& Poll.POLLIN ≠ 0))
      (decide (x &&& Poll.POLLOUT ≠ 0)) (decide (x &&& Poll.POLLERR ≠ 0)) := by
  simp only [Poll.fromPollEvent, maskOf, decide_eq_true_eq]
  split <;> split <;> split <;> simp

/-- The kernel's mask with the given bits. -/
def pollBits (read write : Bool) : BitVec 16 :=
  (if read then Poll.POLLIN else 0) ||| if write then Poll.POLLOUT else 0

theorem toPollEvent_eq :
    Poll.toPollEvent m = pollBits (decide (m &&& READ ≠ 0)) (decide (m &&& WRITE ≠ 0)) := by
  simp only [Poll.toPollEvent, pollBits, decide_eq_true_eq]
  split <;> split <;> simp

theorem or_ne_zero {w : Nat} {x y : BitVec w} : x ||| y ≠ 0 ↔ x ≠ 0 ∨ y ≠ 0 := by
  rw [Ne, show x ||| y = 0 ↔ x = 0 ∧ y = 0 from BitVec.or_eq_zero_iff, not_and_or]

theorem readiness_bits (c : BitVec 16) :
    (readiness (some c) &&& READ ≠ 0 ↔
      c &&& Poll.POLLIN ≠ 0 ∨ c &&& Poll.POLLHUP ≠ 0 ∨ c &&& Poll.POLLERR ≠ 0) ∧
      (readiness (some c) &&& WRITE ≠ 0 ↔ c &&& Poll.POLLOUT ≠ 0 ∨ c &&& Poll.POLLERR ≠ 0) := by
  have hbits := maskOf_bits
    (decide (c &&& (Poll.POLLIN ||| Poll.POLLHUP ||| Poll.POLLERR) ≠ 0))
    (decide (c &&& (Poll.POLLOUT ||| Poll.POLLERR) ≠ 0)) (decide (c &&& Poll.POLLPRI ≠ 0))
  simp only [maskOf, decide_eq_true_eq] at hbits
  obtain ⟨hread, hwrite, -⟩ := hbits
  refine ⟨hread.trans ?_, hwrite.trans ?_⟩
  · rw [BitVec.and_or_distrib_left, BitVec.and_or_distrib_left, or_ne_zero, or_ne_zero, or_assoc]
  · rw [BitVec.and_or_distrib_left, or_ne_zero]

end Masks

/-! ### `Poll` -/

namespace Poll

/-- Counted by the return value, the loop reads every entry with an event. -/
theorem scan_countP (pollfds : List (PollFd × BitVec 16)) :
    scan pollfds (pollfds.countP fun p => p.2 ≠ 0) =
      (pollfds.filter fun p => p.2 ≠ 0).map fun p => (p.1.fd, fromPollEvent p.2) := by
  induction pollfds with
  | nil => rfl
  | cons p pollfds ih =>
    obtain ⟨p, revents⟩ := p
    by_cases hzero : revents = 0
    · have hskip : ∀ n, scan ((p, revents) :: pollfds) n = scan pollfds n := by
        intro n
        cases n with
        | zero => cases pollfds <;> rfl
        | succ n => rw [scan, if_pos hzero]
      rw [hskip, List.countP_cons_of_neg (by simpa using hzero),
        List.filter_cons_of_neg (by simpa using hzero), ih]
    · rw [List.countP_cons_of_pos (by simpa using hzero),
        List.filter_cons_of_pos (by simpa using hzero), scan, if_neg hzero, ih]
      rfl

variable {s : Poll} {r : Registered} {m : Mask}

/-- The descriptors of the entries are those registered, each once. -/
theorem Tracks.nodup (h : s.Tracks r) : (s.pollfds.map PollFd.fd).Nodup := Indexed.nodup h.exact

theorem Tracks.mem (h : s.Tracks r) {p : PollFd} :
    p ∈ s.pollfds ↔ ∃ m, r p.fd = some m ∧ toPollEvent m = p.events := by
  rw [h.exact.mem_pollfds, h.interest, Option.map_eq_some_iff]

theorem scan_natCast (pollfds : List (PollFd × BitVec 16)) (n : Nat) :
    (if (0 : Int) < n then scan pollfds (n : Int).toNat else []) = scan pollfds n := by
  cases n with
  | zero => cases pollfds <;> rfl
  | succ n => exact if_pos (Int.natCast_succ_pos n)

theorem poll_ready (s : Poll) (cond : Int → Condition) :
    s.poll (.ready cond) =
      ((s.pollfds.map fun p => (p, revents p.events (cond p.fd))).filter
        fun p => p.2 ≠ 0).map fun p => (p.1.fd, fromPollEvent p.2) :=
  (scan_natCast _ _).trans (scan_countP _)

/-- `Poll` reports each descriptor of which `::poll` has something to say, once. -/
theorem Tracks.nodup_select (h : s.Tracks r) (cond : Int → Condition) :
    ((s.select (.ready cond)).map Prod.fst).Nodup := by
  refine List.Nodup.sublist ?_ h.nodup
  have hsub := (List.filter_sublist (p := fun p : PollFd × BitVec 16 => decide (p.2 ≠ 0))
    (l := s.pollfds.map fun p => (p, revents p.events (cond p.fd)))).map fun p => p.1.fd
  rw [select, poll_ready]
  simpa [Function.comp_def] using hsub

theorem Tracks.mem_select (h : s.Tracks r) (cond : Int → Condition) (fd : Int) (e : Mask) :
    (fd, e) ∈ s.select (.ready cond) ↔ ∃ m, r fd = some m ∧
      revents (toPollEvent m) (cond fd) ≠ 0 ∧
      e = fromPollEvent (revents (toPollEvent m) (cond fd)) := by
  rw [select, poll_ready]
  simp only [List.mem_map, List.mem_filter, decide_eq_true_eq, Prod.mk.injEq]
  constructor
  · rintro ⟨_, ⟨⟨p, hp, rfl⟩, hne⟩, rfl, rfl⟩
    obtain ⟨m, hm, hevents⟩ := h.mem.mp hp
    rw [← hevents] at hne ⊢
    exact ⟨m, hm, hne, rfl⟩
  · rintro ⟨m, hm, hne, rfl⟩
    exact ⟨_, ⟨⟨⟨fd, toPollEvent m⟩, h.mem.mpr ⟨m, hm, rfl⟩, rfl⟩, hne⟩, rfl, rfl⟩

/-- `::poll` has no more to say of a descriptor than what is asked for and ready: it is open
and without an error, and a hang-up comes with something that is asked for, and with data if
these are asked for. -/
def OnlyAsked (m : Mask) (c : Condition) : Prop :=
  ∃ c', c = some c' ∧ c' &&& POLLERR = 0 ∧
    (c' &&& POLLHUP ≠ 0 → toPollEvent m &&& c' ≠ 0 ∧ (m &&& READ ≠ 0 → c' &&& POLLIN ≠ 0))

theorem toPollEvent_and_ne_zero (m : Mask) (c : BitVec 16) :
    toPollEvent m &&& c ≠ 0 ↔
      m &&& READ ≠ 0 ∧ c &&& POLLIN ≠ 0 ∨ m &&& WRITE ≠ 0 ∧ c &&& POLLOUT ≠ 0 := by
  have hbits : ∀ read write, pollBits read write &&& c ≠ 0 ↔
      read = true ∧ c &&& POLLIN ≠ 0 ∨ write = true ∧ c &&& POLLOUT ≠ 0 := by
    intro read write
    cases read <;> cases write <;>
      simp [pollBits, BitVec.and_comm _ c, BitVec.and_or_distrib_left, BitVec.or_eq_zero_iff]
    tauto
  rw [toPollEvent_eq, hbits, decide_eq_true_eq, decide_eq_true_eq]

/-- What `::poll` has to say of a descriptor that is open. -/
theorem revents_some (m : Mask) (c : BitVec 16) :
    fromPollEvent (revents (toPollEvent m) (some c)) =
        maskOf (decide (m &&& READ ≠ 0 ∧ c &&& POLLIN ≠ 0))
          (decide (m &&& WRITE ≠ 0 ∧ c &&& POLLOUT ≠ 0)) (decide (c &&& POLLERR ≠ 0)) ∧
      (revents (toPollEvent m) (some c) ≠ 0 ↔
        toPollEvent m &&& c ≠ 0 ∨ c &&& POLLERR ≠ 0 ∨ c &&& POLLHUP ≠ 0) := by
  have hbits : ∀ read write,
      let e := pollBits read write ||| POLLERR ||| POLLHUP
      (e &&& POLLIN ≠ 0 ↔ read) ∧ (e &&& POLLOUT ≠ 0 ↔ write) ∧ e &&& POLLERR ≠ 0 := by decide
  obtain ⟨hin, hout, herr⟩ := hbits (decide (m &&& READ ≠ 0)) (decide (m &&& WRITE ≠ 0))
  rw [← toPollEvent_eq] at hin hout herr
  constructor
  · have hread : (toPollEvent m ||| POLLERR ||| POLLHUP) &&& c &&& POLLIN ≠ 0 ↔ _ :=
      and_and_twoPow_ne_zero (i := 0) (by decide)
    have hwrite : (toPollEvent m ||| POLLERR ||| POLLHUP) &&& c &&& POLLOUT ≠ 0 ↔ _ :=
      and_and_twoPow_ne_zero (i := 2) (by decide)
    have herror : (toPollEvent m ||| POLLERR ||| POLLHUP) &&& c &&& POLLERR ≠ 0 ↔ _ :=
      and_and_twoPow_ne_zero (i := 3) (by decide)
    rw [fromPollEvent_eq, revents]
    congr 1
    · exact decide_eq_decide.mpr (hread.trans (and_congr_left' (hin.trans decide_eq_true_iff)))
    · exact decide_eq_decide.mpr (hwrite.trans (and_congr_left' (hout.trans decide_eq_true_iff)))
    · exact decide_eq_decide.mpr (herror.trans (and_iff_right herr))
  · rw [revents, BitVec.and_comm, BitVec.and_or_distrib_left, BitVec.and_or_distrib_left,
      or_ne_zero, or_ne_zero, or_assoc, BitVec.and_comm c]

/-- What a descriptor is reported with is what is asked for and ready, or nothing. -/
theorem onlyAsked_iff (hm : ReadWrite m) (c : Condition) :
    (∀ e, revents (toPollEvent m) c ≠ 0 ∧ e = fromPollEvent (revents (toPollEvent m) c) ↔
      m &&& readiness c = e ∧ e ≠ 0) ↔ OnlyAsked m c := by
  cases c with
  | none =>
    refine iff_of_false ?_ (by rintro ⟨c', heq, -⟩; cases heq)
    intro h
    exact ((h 0).mp ⟨show POLLNVAL ≠ 0 by decide, show 0 = fromPollEvent POLLNVAL by decide⟩).2 rfl
  | some c =>
    obtain ⟨hfrom, hne⟩ := revents_some m c
    have hpoint : ∀ {P : Prop} {x y : Mask}, (∀ e, P ∧ e = x ↔ y = e ∧ e ≠ 0) ↔
        (P ↔ y ≠ 0) ∧ (P → x = y) := by
      intro P x y
      constructor
      · intro h
        refine ⟨⟨fun hP => ?_, fun hy => ((h y).mpr ⟨rfl, hy⟩).1⟩, fun hP => ?_⟩
        · obtain ⟨rfl, hx⟩ := (h x).mp ⟨hP, rfl⟩
          exact hx
        · exact ((h x).mp ⟨hP, rfl⟩).1.symm
      · rintro ⟨hiff, heq⟩ e
        constructor
        · rintro ⟨hP, rfl⟩
          exact ⟨(heq hP).symm, heq hP ▸ hiff.mp hP⟩
        · rintro ⟨rfl, hne⟩
          exact ⟨hiff.mpr hne, (heq (hiff.mpr hne)).symm⟩
    have hcases : ∀ a b i o e h : Bool,
        (((a && i || b && o) || e || h) ↔ maskOf (a && (i || h || e)) (b && (o || e)) false ≠ 0) ∧
          (((a && i || b && o) || e || h) →
            maskOf (a && i) (b && o) e = maskOf (a && (i || h || e)) (b && (o || e)) false) ↔
        e = false ∧ (h → (a && i || b && o) ∧ (a → i)) := by decide
    have hasked : OnlyAsked m (some c) ↔ c &&& POLLERR = 0 ∧
        (c &&& POLLHUP ≠ 0 → toPollEvent m &&& c ≠ 0 ∧ (m &&& READ ≠ 0 → c &&& POLLIN ≠ 0)) := by
      constructor
      · rintro ⟨c', heq, h⟩
        cases heq
        exact h
      · intro h
        exact ⟨c, rfl, h⟩
    obtain ⟨hread, hwrite⟩ := readiness_bits c
    have h := hcases (decide (m &&& READ ≠ 0)) (decide (m &&& WRITE ≠ 0))
      (decide (c &&& POLLIN ≠ 0)) (decide (c &&& POLLOUT ≠ 0)) (decide (c &&& POLLERR ≠ 0))
      (decide (c &&& POLLHUP ≠ 0))
    rw [hpoint, hasked, hfrom, hne, hm.and_eq_maskOf, toPollEvent_and_ne_zero]
    simp only [hread, hwrite, ← or_assoc]
    simpa only [Bool.decide_and, Bool.decide_or, Bool.or_eq_true, Bool.and_eq_true,
      decide_eq_true_eq, decide_eq_false_iff_not, not_not] using h

/-- `Poll` reports what is ready, restricted to the interest, if and only if `::poll` has
nothing to say that is not asked for. -/
theorem Tracks.reports_iff (h : s.Tracks r) (hinterest : ∀ fd m, r fd = some m → ReadWrite m)
    (cond : Int → Condition) :
    Reports (r.active (.ready cond)) (s.select (.ready cond)) ↔
      ∀ fd m, r fd = some m → OnlyAsked m (cond fd) := by
  constructor
  · rintro ⟨-, hmem⟩ fd m hm
    rw [← onlyAsked_iff (hinterest fd m hm)]
    intro e
    have hfd := hmem fd e
    rw [h.mem_select] at hfd
    simpa [hm, Registered.active, Registered.readyOf] using hfd
  · intro hasked
    refine ⟨h.nodup_select cond, ?_⟩
    intro fd e
    rw [h.mem_select, Registered.active, Registered.readyOf]
    cases hm : r fd with
    | none =>
      refine iff_of_false (by rintro ⟨m, hm, -⟩; cases hm) ?_
      rintro ⟨rfl, hne⟩
      exact hne BitVec.zero_and
    | some m =>
      have hfd := (onlyAsked_iff (hinterest fd m hm) (cond fd)).mpr (hasked fd m hm) e
      rw [Option.getD_some, ← hfd]
      simp

end Poll

/-! ### `Select` -/

namespace Select

/-- What `Select` finds set for a descriptor: after a failure, all of its interest. -/
def reported (r : Registered) (w : Wait) (fd : Int) : Mask :=
  match w with
  | .ready cond => (r fd).getD 0 &&& readiness (cond fd)
  | .timeout => 0
  | .failed => (r fd).getD 0

variable {s : Select} {r : Registered} {fds : Finset Int} {max fd : Int}

theorem Watches.mem_iff {e : Mask} (h : Watches r e fds) : fd ∈ fds ↔ (r fd).getD 0 &&& e ≠ 0 := by
  rw [h fd]
  cases r fd with
  | none => simp
  | some m => simp

theorem Greatest.le (h : Greatest r max) (hfd : (r fd).isSome) : fd ≤ max := by
  rcases h with ⟨-, hupper⟩ | ⟨rfl, -⟩
  · exact hupper hfd
  · cases hfd

theorem mem_wait {i : Nat} (hi : i < 32) (h : Watches r (BitVec.twoPow 32 i) fds)
    (hmax : Greatest r max) (w : Wait) :
    fd ∈ wait (max + 1) (BitVec.twoPow 32 i) fds w ↔
      reported r w fd &&& BitVec.twoPow 32 i ≠ 0 := by
  cases w with
  | ready cond =>
    rw [wait, Finset.mem_filter, h.mem_iff, reported, and_and_twoPow_ne_zero hi]
    constructor
    · rintro ⟨hset, -, hready⟩
      exact ⟨hset, hready⟩
    · rintro ⟨hset, hready⟩
      obtain ⟨m, hm, -⟩ := (h fd).mp (h.mem_iff.mpr hset)
      exact ⟨hset, Int.lt_add_one_iff.mpr (hmax.le (by rw [hm]; rfl)), hready⟩
  | timeout => simp [wait, reported]
  | failed => exact h.mem_iff

theorem Tracks.mem_allFds (h : s.Tracks r) : fd ∈ s.allFds ↔ (r fd).isSome := by
  rw [← h.registered, ← Indexed.lookup_isSome h.exact, Option.isSome_iff_exists]
  constructor
  · intro hmem
    exact ⟨fd, (Indexed.lookup_eq_some_iff h.exact).mpr ⟨hmem, rfl⟩⟩
  · rintro ⟨fd', hfd'⟩
    obtain ⟨hmem, rfl⟩ := (Indexed.lookup_eq_some_iff h.exact).mp hfd'
    exact hmem

theorem readWrite_reported (hinterest : ∀ fd m, r fd = some m → ReadWrite m) (w : Wait)
    (fd : Int) : ReadWrite (reported r w fd) := by
  have hfd : ReadWrite ((r fd).getD 0) := by
    cases hm : r fd with
    | none => exact BitVec.zero_and
    | some m => exact hinterest fd m hm
  cases w with
  | ready cond => exact hfd.and (readiness (cond fd))
  | timeout => exact BitVec.zero_and
  | failed => exact hfd

/-- The loop of `Select::select` puts each mask together from the three sets. -/
theorem Tracks.select_eq (h : s.Tracks r) (hinterest : ∀ fd m, r fd = some m → ReadWrite m)
    {w w' : Wait} (hw : s.outcome w = w') :
    s.select w = s.allFds.filterMap fun fd =>
      if reported r w' fd ≠ 0 then some (fd, reported r w' fd) else none := by
  have hrevents : ∀ fd,
      (let revents : Mask := 0
       let revents := if fd ∈ wait (s.maxFds + 1) READ s.readFds w' then revents ||| READ
        else revents
       let revents := if fd ∈ wait (s.maxFds + 1) WRITE s.writeFds w' then revents ||| WRITE
        else revents
       if fd ∈ wait (s.maxFds + 1) ERROR s.errorFds w' then revents ||| ERROR else revents) =
        reported r w' fd := by
    intro fd
    have hrw := readWrite_reported hinterest w' fd
    have hread : fd ∈ wait (s.maxFds + 1) READ s.readFds w' ↔ reported r w' fd &&& READ ≠ 0 :=
      mem_wait (i := 0) (by decide) h.readFds h.maxFds w'
    have hwrite : fd ∈ wait (s.maxFds + 1) WRITE s.writeFds w' ↔
        reported r w' fd &&& WRITE ≠ 0 :=
      mem_wait (i := 1) (by decide) h.writeFds h.maxFds w'
    have herror : fd ∉ wait (s.maxFds + 1) ERROR s.errorFds w' := by
      intro hmem
      exact (mem_wait (i := 2) (by decide) h.errorFds h.maxFds w').mp hmem hrw.error
    refine Eq.trans ?_ hrw.eq
    simp only [hread, hwrite, if_neg herror]
    split <;> split <;> simp
  subst hw
  simp only [select]
  congr 1
  funext fd
  rw [← hrevents fd]

/-- `Select` reports each descriptor at most once, with what it finds set. -/
theorem Tracks.nodup_select (h : s.Tracks r)
    (hinterest : ∀ fd m, r fd = some m → ReadWrite m) {w w' : Wait} (hw : s.outcome w = w') :
    ((s.select w).map Prod.fst).Nodup := by
  have hfst : ∀ fd, Option.map Prod.fst
      (if reported r w' fd ≠ 0 then some (fd, reported r w' fd) else none) =
      Option.guard (fun fd => decide (reported r w' fd ≠ 0)) fd := by
    intro fd
    rw [Option.guard]
    split <;> simp_all
  rw [h.select_eq hinterest hw, List.map_filterMap]
  simp only [hfst, List.filterMap_eq_filter]
  have hnodup := Indexed.nodup h.exact
  rw [List.map_id] at hnodup
  exact hnodup.filter _

theorem Tracks.mem_select (h : s.Tracks r) (hinterest : ∀ fd m, r fd = some m → ReadWrite m)
    {w w' : Wait} (hw : s.outcome w = w') (e : Mask) :
    (fd, e) ∈ s.select w ↔ reported r w' fd = e ∧ e ≠ 0 := by
  rw [h.select_eq hinterest hw, List.mem_filterMap]
  constructor
  · rintro ⟨fd', -, hsome⟩
    split at hsome
    · rename_i hne
      cases hsome
      exact ⟨rfl, hne⟩
    · cases hsome
  · rintro ⟨rfl, hne⟩
    refine ⟨fd, h.mem_allFds.mpr ?_, if_pos hne⟩
    by_contra hnone
    rw [Option.not_isSome_iff_eq_none] at hnone
    apply hne
    cases w' with
    | ready cond => simp [reported, hnone]
    | timeout => rfl
    | failed => simp [reported, hnone]

/-- `::select` does not fail by itself if all that is watched is open. -/
theorem Tracks.outcome_ready (h : s.Tracks r) {cond : Int → Condition}
    (hopen : ∀ fd m, r fd = some m → cond fd ≠ none) :
    s.outcome (.ready cond) = .ready cond := by
  refine if_neg ?_
  rintro ⟨fd, hmem, -, hnone⟩
  obtain ⟨m, hm⟩ : ∃ m, r fd = some m := by
    rcases Finset.mem_union.mp hmem with hmem | hmem
    · rcases Finset.mem_union.mp hmem with hmem | hmem
      · obtain ⟨m, hm, -⟩ := (h.readFds fd).mp hmem
        exact ⟨m, hm⟩
      · obtain ⟨m, hm, -⟩ := (h.writeFds fd).mp hmem
        exact ⟨m, hm⟩
    · obtain ⟨m, hm, -⟩ := (h.errorFds fd).mp hmem
      exact ⟨m, hm⟩
  exact hopen fd m hm hnone

/-- `Select` reports what is ready, restricted to the interest, of descriptors that are
open. -/
theorem Tracks.reports_ready (h : s.Tracks r) (hinterest : ∀ fd m, r fd = some m → ReadWrite m)
    {cond : Int → Condition} (hopen : ∀ fd m, r fd = some m → cond fd ≠ none) :
    Reports (r.active (.ready cond)) (s.select (.ready cond)) :=
  ⟨h.nodup_select hinterest (h.outcome_ready hopen),
    fun _ e => h.mem_select hinterest (h.outcome_ready hopen) e⟩

theorem Tracks.reports_timeout (h : s.Tracks r)
    (hinterest : ∀ fd m, r fd = some m → ReadWrite m) :
    Reports (r.active .timeout) (s.select .timeout) :=
  have hw : s.outcome .timeout = .timeout := rfl
  ⟨h.nodup_select hinterest hw, fun _ e => h.mem_select hinterest hw e⟩

/-- After a failure `Select` reports what it should if nothing is watched. -/
theorem Tracks.reports_failed_iff (h : s.Tracks r)
    (hinterest : ∀ fd m, r fd = some m → ReadWrite m) :
    Reports (r.active .failed) (s.select .failed) ↔ ∀ fd m, r fd = some m → m = 0 := by
  have hw : s.outcome .failed = .failed := rfl
  constructor
  · rintro ⟨-, hmem⟩ fd m hm
    by_contra hne
    have hreported : (fd, m) ∈ s.select .failed :=
      (h.mem_select hinterest hw m).mpr ⟨by rw [reported, hm]; rfl, hne⟩
    obtain ⟨hactive, -⟩ := (hmem fd m).mp hreported
    exact hne hactive.symm
  · intro hnone
    refine ⟨h.nodup_select hinterest hw, ?_⟩
    intro fd e
    have hzero : reported r .failed fd = 0 := by
      cases hm : r fd with
      | none => simp [reported, hm]
      | some m => simp [reported, hm, hnone fd m hm]
    rw [h.mem_select hinterest hw, hzero]
    rfl

theorem Tracks.inSets_iff (h : s.Tracks r) :
    s.InSets ↔ ∀ fd, (r fd).isSome → 0 ≤ fd ∧ fd < FD_SETSIZE :=
  forall_congr' fun _ => by rw [h.mem_allFds]

end Select

/-! ### Both -/

/-- The outcomes that `Poll` and `Select` report alike: nothing that `::poll` reports unasked
holds of a descriptor, and the call does not fail while something is watched. -/
def Wait.Alike (r : Registered) : Wait → Prop
  | .ready cond => ∀ fd m, r fd = some m → Poll.OnlyAsked m (cond fd)
  | .timeout => True
  | .failed => ∀ fd m, r fd = some m → m = 0

/-- In every state that `Poll` and `Select` reach by the same calls, and for every
outcome of the wait call, both report what is ready restricted to the interest, and
nothing after a failure, if and only if `::poll` reports nothing unasked and the call does not
fail while something is watched; and `Select` keeps inside its sets for descriptors below
`FD_SETSIZE`. -/
theorem select_agree_iff {calls : List SelectorCall} {r : Registered}
    (hrun : exec Registered.step .empty calls = .ok r)
    (hinterest : ∀ fd m, r fd = some m → ReadWrite m) (w : Wait) :
    ∃ p s, exec Poll.selector.step {} calls = .ok p ∧
      exec Select.selector.step {} calls = .ok s ∧
      (s.InSets ∧ Reports (r.active w) (p.select w) ∧ Reports (r.active w) (s.select w) ↔
        (∀ fd, (r fd).isSome → 0 ≤ fd ∧ fd < Select.FD_SETSIZE) ∧ w.Alike r) := by
  obtain ⟨p, hp, hpoll⟩ := Poll.refines.exec_ok Poll.tracks_empty hrun
  obtain ⟨s, hs, hselect⟩ := Select.refines.exec_ok Select.tracks_empty hrun
  refine ⟨p, s, hp, hs, ?_⟩
  rw [hselect.inSets_iff]
  refine and_congr_right fun _ => ?_
  cases w with
  | ready cond =>
    rw [hpoll.reports_iff hinterest]
    refine ⟨And.left, fun hasked => ⟨hasked, hselect.reports_ready hinterest ?_⟩⟩
    intro fd m hm hnone
    obtain ⟨c, hc, -⟩ := hasked fd m hm
    rw [hnone] at hc
    cases hc
  | timeout => exact iff_of_true ⟨reports_nil, hselect.reports_timeout hinterest⟩ trivial
  | failed =>
    rw [hselect.reports_failed_iff hinterest]
    exact and_iff_right reports_nil

theorem readWrite_of_one {fd : Int} {e : Mask} (he : ReadWrite e) :
    ∀ fd' m, Function.update Registered.empty fd (some e) fd' = some m → ReadWrite m := by
  intro fd' m hm
  rw [Function.update_apply] at hm
  split at hm
  · cases hm
    exact he
  · cases hm

theorem eq_of_one {fd fd' : Int} {e : Mask}
    (h : (Function.update Registered.empty fd (some e) fd').isSome) : fd' = fd := by
  rw [Function.update_apply] at h
  split at h
  · assumption
  · cases h

/-- A listener that is ready. -/
theorem select_agree_ready :
    ∃ p s, exec Poll.selector.step {} [.addHandle 3 READ] = .ok p ∧
      exec Select.selector.step {} [.addHandle 3 READ] = .ok s ∧
      (3, READ) ∈ p.select (.ready fun _ => some Poll.POLLIN) ∧
      (3, READ) ∈ s.select (.ready fun _ => some Poll.POLLIN) := by
  have hrun : exec Registered.step .empty [.addHandle 3 READ] =
      .ok (Function.update Registered.empty 3 (some READ)) := rfl
  obtain ⟨p, s, hp, hs, hiff⟩ :=
    select_agree_iff hrun (readWrite_of_one (by decide)) (.ready fun _ => some Poll.POLLIN)
  obtain ⟨-, hpoll, hselect⟩ := hiff.mpr ⟨fun fd hfd => by
    rw [eq_of_one hfd]
    decide, fun _ _ _ => ⟨_, rfl, by decide, fun hhup => absurd rfl hhup⟩⟩
  exact ⟨p, s, hp, hs, (hpoll.mem 3 READ).mpr ⟨rfl, by decide⟩,
    (hselect.mem 3 READ).mpr ⟨rfl, by decide⟩⟩

/-- A signal arrives while a listener is watched: `Select` reports it as readable. -/
theorem select_agree_failed :
    ¬ ∀ (calls : List SelectorCall) (r : Registered) (w : Wait) (p : Poll) (s : Select),
      exec Registered.step .empty calls = .ok r → (∀ fd m, r fd = some m → ReadWrite m) →
      exec Poll.selector.step {} calls = .ok p → exec Select.selector.step {} calls = .ok s →
      Reports (r.active w) (p.select w) ∧ Reports (r.active w) (s.select w) := by
  intro h
  have hselect := (h [.addHandle 3 READ] _ .failed _ _ rfl (readWrite_of_one (by decide)) rfl
    rfl).2
  have hmem : ((3 : Int), READ) ∈ Select.select
      { readFds := {3}, allFds := [3], handles := (∅ : Std.TreeMap Int Nat).insert 3 0,
        maxFds := 3 } .failed := by decide
  obtain ⟨hactive, -⟩ := (hselect.mem 3 READ).mp hmem
  cases hactive

end MixServer.Net
