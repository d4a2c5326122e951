import MixServer.Net.PriQueue

/-!
Timers under a clock that wraps.

`Timer::get_now` truncates the monotonic clock to 32 bits, `_start_timer` adds
the delay modulo `2 ^ 32`, and `update` and `TimerCompare` compare the results as
they are. `timers_on_time` says when that does no harm: at each update, for every
timer that is pending, no wrap lies between the clock and the time it is due, or
its truncated expiry has already been passed again (`NoWrap`).

The trace keeps the clock itself, in centiseconds; what the code sees of it is
`getNow`.
-/

namespace MixServer.Net.Timer

open Lib Lib.Heap

variable {tm tm₀ tm' : Timer}

/-! ### The clock -/

/-- `Timer::get_now`, when the monotonic clock stands at `c` centiseconds. -/
def getNow (c : Nat) : Nat := u32 c

/-- `_start_timer` reads the clock, but only for a sum of 32 bits. -/
theorem u32_getNow_add (c t : Nat) : u32 (getNow c + t) = u32 (c + t) := by
  simp only [getNow, u32]
  omega

theorem startTimer_getNow (tm : Timer) (c t h : Nat) :
    { tm.startTimer c t h with trace := [] } =
      { tm.startTimer (getNow c) t h with trace := [] } := by
  simp only [startTimer, push, u32_getNow_add]
  rfl

variable (script : List TimerEvent → List TimerCall)

/-- `Timer::update`, when the clock stands at `c`. -/
def updateAt (rounds c : Nat) (tm : Timer) : Outcome :=
  if tm.minHeap = [] then .ok tm else loop script (getNow c) rounds (tm.record (.update c))

/-- Before the clock wraps for the first time, this is `update`. -/
theorem updateAt_of_lt {c : Nat} (hc : c < 2 ^ 32) (rounds : Nat) (tm : Timer) :
    updateAt script rounds c tm = tm.update script rounds c := by
  rw [updateAt, update, getNow, u32, Nat.mod_eq_of_lt hc]

/-- One call from outside; the numbers are the clock. -/
def stepAt (rounds : Nat) : Timer → TimerAction → Outcome
  | tm, .call c => tm.call c
  | tm, .update c => updateAt script rounds c tm

/-- The clock does not go back, a handle is started once, and delays are below
`2 ^ 31`. -/
structure Clocked (tr : List TimerEvent) : Prop where
  distinct : (started tr).Nodup
  clock : (readings tr).Pairwise (· ≤ ·)
  delays : ∀ c t h, .started c t h ∈ tr → t < 2 ^ 31

theorem Clocked.of_prefix {tr tr' : List TimerEvent} (h : Clocked tr') (hpre : tr <+: tr') :
    Clocked tr := by
  obtain ⟨rest, rfl⟩ := hpre
  constructor
  · have hdistinct := h.distinct
    rw [started_append] at hdistinct
    exact (List.nodup_append.mp hdistinct).1
  · have hclock := h.clock
    rw [readings_append] at hclock
    exact (List.pairwise_append.mp hclock).1
  · exact fun c t q hq => h.delays c t q (List.mem_append_left _ hq)

/-- What a reading of the clock follows was read no later. -/
theorem Clocked.le_of_mem {tr tr' : List TimerEvent} (h : Clocked (tr ++ tr')) {c c' : Nat}
    (hc : c ∈ readings tr) (hc' : c' ∈ readings tr') : c ≤ c' := by
  have hclock := h.clock
  rw [readings_append] at hclock
  exact (List.pairwise_append.mp hclock).2.2 c hc c' hc'

/-- Between the clock `c` and the time `due` there is no wrap, or `due` has passed
and so has its truncation. -/
def NoWrap (c due : Nat) : Prop :=
  if due ≤ c then u32 due ≤ u32 c else due / 2 ^ 32 = c / 2 ^ 32

instance (c due : Nat) : Decidable (NoWrap c due) := by
  unfold NoWrap
  infer_instance

/-- Then the truncated values compare like the times. -/
theorem NoWrap.iff {c due : Nat} (h : NoWrap c due) : u32 due ≤ u32 c ↔ due ≤ c := by
  unfold NoWrap at h
  split at h
  · rename_i hle
    exact iff_of_true h hle
  · rename_i hlt
    simp only [hlt, iff_false, u32]
    omega

theorem noWrap_of_iff {c due : Nat} (hdue : due < c + 2 ^ 32) (h : u32 due ≤ u32 c ↔ due ≤ c) :
    NoWrap c due := by
  unfold NoWrap
  split
  · rename_i hle
    exact h.mpr hle
  · rename_i hlt
    simp only [hlt, iff_false, u32] at h
    omega

theorem NoWrap.le_of_le {c due : Nat} (h : NoWrap c due) (hle : c ≤ due) : u32 c ≤ u32 due := by
  unfold NoWrap at h
  split at h
  · rename_i hge
    rw [Nat.le_antisymm hge hle]
  · simp only [u32]
    omega

/-! ### What the timers need -/

/-- If the handle is queued, those behind it fit when it is removed. -/
def FitsAt (tm : Timer) (h : Nat) : Prop :=
  ∀ i ∈ tm.minHeap.idxOf? h, Fits tm.cmp tm.minHeap i

instance (tm : Timer) (h : Nat) : Decidable (FitsAt tm h) := by
  unfold FitsAt
  infer_instance

/-- A call of the callback of `p` in an update at the clock `c`. -/
def Undisturbed (c p : Nat) (tm : Timer) : TimerCall → Prop
  | .start c' t _ => NoWrap c (c' + t)
  | .cancel h => h ≠ p ∧ FitsAt tm h

/-- `P` holds of each call, and the timer it finds, that the callbacks make in so
many rounds of the loop. -/
def EveryCall (now : Nat) (P : Nat → Timer → TimerCall → Prop) : Nat → Timer → Prop
  | 0, _ => True
  | rounds + 1, tm =>
      match tm.minHeap with
      | [] => True
      | p :: _ =>
          tm.getMin ≤ now →
            Every call (P p) (tm.record (.fired p)) (script (tm.record (.fired p)).trace) ∧
              ∀ tm₁ tm₂, tm.callback script p = .ok tm₁ → tm₁.pop = .ok tm₂ →
                EveryCall now P rounds tm₂

/-- What leaves the queue early leaves it in order, and callbacks keep their own
handles in front. -/
def Orderly (rounds : Nat) (tm : Timer) : TimerAction → Prop
  | .call (.start _ _ _) => True
  | .call (.cancel h) => FitsAt tm h
  | .update c => EveryCall script (getNow c) (Undisturbed c) rounds (tm.record (.update c))

/-- The timers of one update at the clock `c`; `tr` is what happens in it. -/
structure Punctual (c : Nat) (tm tm' : Timer) (tr : List TimerEvent) : Prop where
  trace : tm'.trace = tm.trace ++ tr
  once : (fired tr).Nodup
  /-- Nothing runs before its delay has elapsed. -/
  notEarly : ∀ s t h, .started s t h ∈ tm'.trace → h ∈ fired tr → s + t ≤ c
  /-- What is pending runs if its delay has elapsed. -/
  notLate : ∀ s t h, .started s t h ∈ tm'.trace → h ∈ tm.minHeap ++ started tr →
    h ∉ cancelled tr → s + t ≤ c → h ∈ fired tr
  /-- Nothing else leaves the queue. -/
  stays : ∀ h ∈ tm.minHeap ++ started tr, h ∉ fired tr → h ∉ cancelled tr → h ∈ tm'.minHeap

/-! ### Calls -/

/-- `remove` keeps the heap if what is behind the slot fits. -/
theorem remove_isHeap (hheap : IsHeap tm.cmp tm.minHeap) {h : Nat} (hfits : FitsAt tm h) :
    Ensures (tm.remove h) (fun tm' => IsHeap tm'.cmp tm'.minHeap) fun _ => True := by
  cases hrem : tm.remove h with
  | error x => trivial
  | ok tm' =>
    have hqueue := PriQueue.remove_spec (q := tm.pqueue []) (libstdcxx (strictWeak_cmp tm))
      hheap hfits
    have hobjs := ((remove_spec tm h).of_ok hrem).2.1
    have hkept : IsHeap tm.cmp tm'.minHeap := (hqueue.of_ok (pqueue_remove tm [] hrem)).2.2
    refine isHeap_congr hkept fun q _ => ?_
    rw [expired, hobjs]
    rfl

variable {script : List TimerEvent → List TimerCall}
variable {now c p : Nat} {tr : List TimerEvent} {r : Option Nat}

/-- A callback cancels another timer than its own. -/
theorem Within.cancel (h : Within tm₀ now tr r tm) {q : Nat} (hq : ∀ p ∈ r, q ≠ p)
    (hfits : FitsAt tm q) :
    Ensures (tm.endTimer q) (Within tm₀ now (tr ++ [.cancelled q]) r) fun _ => True := by
  have hkeeps : Keeps tm.trace (.cancelled q) := by
    simp only [Keeps, h.inv.running]
    cases r with
    | none => trivial
    | some p => exact hq p rfl
  have hheap : IsHeap (tm.record (.cancelled q)).cmp (tm.record (.cancelled q)).minHeap := h.heap
  have hremove := remove_isHeap hheap hfits
  have hspec := remove_spec (tm.record (.cancelled q)) q
  have hend := h.inv.endTimer hkeeps
  cases hcall : tm.endTimer q with
  | error x => trivial
  | ok tm' =>
    obtain ⟨hinv, htrace⟩ := hend.of_ok hcall
    constructor
    · rw [htrace, h.trace, List.append_assoc]
    · exact hinv
    · exact hremove.of_ok hcall
    · intro f hf
      rw [fired_append] at hf
      rw [expired, (hspec.of_ok hcall).2.1]
      exact h.due f (by simpa [fired] using hf)

/-- The events `tr` of an update at the clock `c`, no start of which is apart from
the clock by a wrap. -/
structure During (tm₀ : Timer) (c : Nat) (tr : List TimerEvent) (r : Option Nat) (tm : Timer) :
    Prop where
  within : Within tm₀ (getNow c) tr r tm
  read : c ∈ readings tr
  noWrap : ∀ s t h, .started s t h ∈ tr → NoWrap c (s + t)

/-- An event that neither starts a timer nor reads the clock. -/
theorem During.event (h : During tm₀ c tr r tm) {e : TimerEvent} {r' : Option Nat}
    (hwithin : Within tm₀ (getNow c) (tr ++ [e]) r' tm') (he : started [e] = []) :
    During tm₀ c (tr ++ [e]) r' tm' where
  within := hwithin
  read := by
    rw [readings_append]
    exact List.mem_append_left _ h.read
  noWrap s t q hq := by
    rcases List.mem_append.mp hq with hq | hq
    · exact h.noWrap s t q hq
    · obtain rfl := List.mem_singleton.mp hq
      cases he

/-- A call of the callback of `p`. A timer it starts is not due before `c`, so
without a wrap it does not get in front of `p`. -/
theorem During.call (h : During tm₀ c tr (some p) tm) (hp : p ∈ fired tr) {e : TimerCall}
    (he : Undisturbed c p tm e) (hcall : tm.call e = .ok tm') (hclock : Clocked tm'.trace) :
    ∃ ev, During tm₀ c (tr ++ [ev]) (some p) tm' := by
  cases e with
  | start c' t q =>
    cases hcall
    have hle : c ≤ c' := by
      have hread : c ∈ readings tm.trace := by
        rw [h.within.trace, readings_append]
        exact List.mem_append_right _ h.read
      exact hclock.le_of_mem hread (by simp [readings])
    have hkeeps : Keeps tm.trace (.started c' t q) := by
      simp only [Keeps, h.within.inv.running]
      right
      rw [← h.within.inv.expiries]
      exact (h.within.due p hp).trans (NoWrap.le_of_le he (hle.trans (Nat.le_add_right _ _)))
    refine ⟨.started c' t q, h.within.start (fresh_of_nodup hclock.distinct) hkeeps, ?_, ?_⟩
    · rw [readings_append]
      exact List.mem_append_left _ h.read
    · intro s' t' q' hq'
      rcases List.mem_append.mp hq' with hq' | hq'
      · exact h.noWrap s' t' q' hq'
      · cases List.mem_singleton.mp hq'
        exact he
  | cancel q =>
    have hq : ∀ p' ∈ some p, q ≠ p' := by
      rintro p' ⟨⟩
      exact he.1
    exact ⟨.cancelled q, h.event ((h.within.cancel hq he.2).of_ok hcall) rfl⟩

/-- All calls of a callback. -/
theorem During.calls (h : During tm₀ c tr (some p) tm) (hp : p ∈ fired tr)
    {calls : List TimerCall} (hcalls : Every Timer.call (Undisturbed c p) tm calls)
    (hexec : exec Timer.call tm calls = .ok tm') (hclock : Clocked tm'.trace) :
    ∃ tr', During tm₀ c tr' (some p) tm' := by
  induction calls generalizing tm tr with
  | nil =>
    cases hexec
    exact ⟨tr, h⟩
  | cons e calls ih =>
    obtain ⟨tm₁, hcall, hexec₁⟩ := exec_cons_eq_ok.mp hexec
    have hpre := (calls_extend List.prefix_rfl calls).of_ok hexec₁
    obtain ⟨ev, h₁⟩ := h.call hp hcalls.1 hcall (hclock.of_prefix hpre)
    refine ih h₁ ?_ (hcalls.2 tm₁ hcall) hexec₁
    rw [fired_append]
    exact List.mem_append_left _ hp

/-- The loop, round by round; where it ends, nothing queued is due. -/
theorem During.loop {rounds : Nat} (hcalls : EveryCall script (getNow c) (Undisturbed c) rounds tm)
    (hloop : loop script (getNow c) rounds tm = .ok tm') (hclock : Clocked tm'.trace)
    (h : During tm₀ c tr none tm) :
    ∃ tr', During tm₀ c tr' none tm' ∧ ∀ q ∈ tm'.minHeap, getNow c < tm'.expired q := by
  induction rounds generalizing tm tr with
  | zero => cases hloop
  | succ rounds ih =>
    cases hheap : tm.minHeap with
    | nil =>
      simp only [Timer.loop, hheap] at hloop
      cases hloop
      refine ⟨tr, h, ?_⟩
      rw [hheap]
      exact fun q hq => absurd hq List.not_mem_nil
    | cons p rest =>
      by_cases hdue : tm.expired p ≤ getNow c
      · have hmin : tm.getMin ≤ getNow c := by simpa only [getMin, hheap] using hdue
        simp only [EveryCall, hheap] at hcalls
        obtain ⟨hthese, hrest⟩ := hcalls hmin
        rw [loop_cons hheap hdue] at hloop
        obtain ⟨tm₁, hcall, hloop₁⟩ := bind_eq_ok.mp hloop
        obtain ⟨tm₂, hpop, hloop₂⟩ := bind_eq_ok.mp hloop₁
        have hpre₂ := (loop_extends script (getNow c) rounds List.prefix_rfl).of_ok hloop₂
        have hpre₁ := (pop_extends List.prefix_rfl).of_ok hpop
        have hfire := h.event (h.within.fire hheap hdue) rfl
        obtain ⟨tr₁, h₁⟩ := hfire.calls (by simp [fired]) hthese hcall
          (hclock.of_prefix (hpre₁.trans hpre₂))
        obtain ⟨tm₂', hpop', h₂, -⟩ := h₁.within.pop
        rw [hpop] at hpop'
        cases hpop'
        exact ih (hrest tm₁ tm₂ hcall hpop) hloop₂ (h₁.event h₂ rfl)
      · simp only [Timer.loop, hheap, getMin, if_neg hdue] at hloop
        cases hloop
        refine ⟨tr, h, ?_⟩
        have hheap' := h.within.heap
        rw [hheap] at hheap' ⊢
        exact late_of_front hheap' hdue

/-! ### One update -/

/-- What an update at the clock `c` does by the truncated values. -/
structure Settled (c : Nat) (tm tm' : Timer) (tr : List TimerEvent) : Prop where
  trace : tm'.trace = tm.trace ++ tr
  account : (fired tr ++ (tm'.minHeap ++ cancelled tr)).Perm (tm.minHeap ++ started tr)
  due : ∀ f ∈ fired tr, tm'.expired f ≤ u32 c
  late : ∀ q ∈ tm'.minHeap, u32 c < tm'.expired q
  read : tm.minHeap ≠ [] → c ∈ readings tr
  noWrap : ∀ s t h, .started s t h ∈ tr → NoWrap c (s + t)

theorem updateAt_settled (h : Idle tm) {rounds : Nat}
    (hupdate : updateAt script rounds c tm = .ok tm') (hclock : Clocked tm'.trace)
    (hcalls : Orderly script rounds tm (.update c)) : Idle tm' ∧ ∃ tr, Settled c tm tm' tr := by
  simp only [updateAt] at hupdate
  split at hupdate
  · rename_i hempty
    cases hupdate
    refine ⟨h, [], ?_⟩
    constructor
    · exact (List.append_nil _).symm
    · simp [fired, cancelled, started]
    · exact fun f hf => absurd hf List.not_mem_nil
    · rw [hempty]
      exact fun q hq => absurd hq List.not_mem_nil
    · exact fun hne => absurd hempty hne
    · exact fun s t q hq => absurd hq List.not_mem_nil
  · have hstart : During tm c [.update c] none (tm.record (.update c)) := by
      constructor
      · exact ⟨rfl, h.inv.beginUpdate c, h.heap, fun f hf => absurd hf List.not_mem_nil⟩
      · simp [readings]
      · intro s t q hq
        cases List.mem_singleton.mp hq
    obtain ⟨tr, hend, hlate⟩ := hstart.loop hcalls hupdate hclock
    obtain ⟨-, haccount⟩ := account_between h.inv hend.within.inv hend.within.trace
    exact ⟨⟨hend.within.inv, hend.within.heap⟩, tr, hend.within.trace, haccount, hend.within.due,
      hlate, fun _ => hend.read, hend.noWrap⟩

/-- The timers that are pending in an update, before it or during it. -/
theorem Settled.noWrap_pending (hset : Settled c tm tm' tr) (hclock : Clocked tm'.trace)
    (hclear : ∀ s t h, .started s t h ∈ tm.trace → h ∈ tm.minHeap → h ∉ cancelled tm'.trace →
      NoWrap c (s + t)) {s t h : Nat} (hstarted : .started s t h ∈ tm'.trace)
    (hpending : h ∈ tm.minHeap ++ started tr) (hun : h ∉ cancelled tm'.trace) :
    NoWrap c (s + t) := by
  rw [hset.trace] at hstarted
  rcases List.mem_append.mp hstarted with hold | hnew
  · rcases List.mem_append.mp hpending with hqueued | hagain
    · exact hclear s t h hold hqueued hun
    · -- a handle is started only once
      have hdistinct := hclock.distinct
      rw [hset.trace, started_append] at hdistinct
      have hin : h ∈ started tm.trace := List.mem_filterMap.mpr ⟨_, hold, rfl⟩
      exact absurd rfl ((List.nodup_append.mp hdistinct).2.2 h hin h hagain)
  · exact hset.noWrap s t h hnew

/-- What is pending in an update has not been cancelled before. -/
theorem uncancelled_of_pending (h : Idle tm) (hdistinct : (started (tm.trace ++ tr)).Nodup)
    {q : Nat} (hq : q ∈ tm.minHeap ++ started tr) : q ∉ cancelled tm.trace := by
  intro hcancelled
  rw [started_append] at hdistinct
  obtain ⟨hbefore, -, hapart⟩ := List.nodup_append.mp hdistinct
  have hin : q ∈ popped tm.trace ++ cancelled tm.trace := List.mem_append_right _ hcancelled
  rcases List.mem_append.mp hq with hqueued | hnew
  · have hnodup := h.inv.account.symm.nodup hbefore
    exact (List.nodup_append.mp hnodup).2.2 q hqueued q hin rfl
  · exact hapart q (h.inv.account.subset (List.mem_append_right _ hin)) q hnew rfl

/-- The expiry that an update finds. -/
theorem Idle.expired_eq (h : Idle tm) (hclock : Clocked tm.trace) {s t q : Nat}
    (hstarted : .started s t q ∈ tm.trace) : tm.expired q = u32 (s + t) := by
  rw [h.inv.expiries, expiry_started hclock.distinct hstarted]

/-- Without a wrap between the clock and the timers that are pending, an update is
punctual. -/
theorem Settled.punctual (hset : Settled c tm tm' tr) (h : Idle tm) (h' : Idle tm')
    (hclock : Clocked tm'.trace)
    (hclear : ∀ s t h, .started s t h ∈ tm.trace → h ∈ tm.minHeap → h ∉ cancelled tm'.trace →
      NoWrap c (s + t)) : Punctual c tm tm' tr := by
  have hdistinct := hclock.distinct
  rw [hset.trace] at hdistinct
  have hnodup := hset.account.symm.nodup (h.inv.nodup_pending hdistinct)
  obtain ⟨honce, -, hapart⟩ := List.nodup_append.mp hnodup
  have hnoWrap : ∀ s t q, .started s t q ∈ tm'.trace → q ∈ tm.minHeap ++ started tr →
      q ∉ cancelled tr → NoWrap c (s + t) := by
    intro s t q hstarted hpending hun
    refine hset.noWrap_pending hclock hclear hstarted hpending ?_
    rw [hset.trace, cancelled_append, List.mem_append, not_or]
    exact ⟨uncancelled_of_pending h hdistinct hpending, hun⟩
  constructor
  · exact hset.trace
  · exact honce
  · intro s t q hstarted hfired
    have hun : q ∉ cancelled tr := fun hq => hapart q hfired q (List.mem_append_right _ hq) rfl
    have hdue := hset.due q hfired
    rw [h'.expired_eq hclock hstarted] at hdue
    exact (hnoWrap s t q hstarted (hset.account.subset (List.mem_append_left _ hfired)) hun).iff.mp
      hdue
  · intro s t q hstarted hpending hun hle
    have hdue := (hnoWrap s t q hstarted hpending hun).iff.mpr hle
    rcases List.mem_append.mp (hset.account.symm.subset hpending) with hfired | hleft
    · exact hfired
    · rcases List.mem_append.mp hleft with hqueued | hcancelled
      · have hlate := hset.late q hqueued
        rw [h'.expired_eq hclock hstarted] at hlate
        exact absurd hdue (not_le.mpr hlate)
      · exact absurd hcancelled hun
  · intro q hpending hfired hun
    rcases List.mem_append.mp (hset.account.symm.subset hpending) with hq | hq
    · exact absurd hq hfired
    · exact (List.mem_append.mp hq).resolve_right hun

/-- A punctual update has no wrap between the clock and a timer that was pending. -/
theorem Settled.noWrap_of_punctual (hset : Settled c tm tm' tr) (h' : Idle tm')
    (hclock : Clocked tm'.trace) (hpunctual : Punctual c tm tm' tr) {s t q : Nat}
    (hstarted : .started s t q ∈ tm.trace) (hqueued : q ∈ tm.minHeap)
    (hun : q ∉ cancelled tm'.trace) : NoWrap c (s + t) := by
  have hne : tm.minHeap ≠ [] := List.ne_nil_of_mem hqueued
  have hstarted' : .started s t q ∈ tm'.trace := by
    rw [hset.trace]
    exact List.mem_append_left _ hstarted
  have hs : s ≤ c := by
    have hall := hclock
    rw [hset.trace] at hall
    exact hall.le_of_mem (List.mem_filterMap.mpr ⟨_, hstarted, rfl⟩) (hset.read hne)
  have ht := hclock.delays s t q hstarted'
  have hpending : q ∈ tm.minHeap ++ started tr := List.mem_append_left _ hqueued
  rw [hset.trace, cancelled_append, List.mem_append, not_or] at hun
  have hexp := h'.expired_eq hclock hstarted'
  apply noWrap_of_iff (by omega)
  constructor
  · intro hdue
    apply hpunctual.notEarly s t q hstarted'
    rcases List.mem_append.mp (hset.account.symm.subset hpending) with hfired | hleft
    · exact hfired
    · have hlate := hset.late q ((List.mem_append.mp hleft).resolve_right hun.2)
      rw [hexp] at hlate
      exact absurd hdue (not_le.mpr hlate)
  · intro hle
    have hdue := hset.due q (hpunctual.notLate s t q hstarted' hpending hun.2 hle)
    rwa [hexp] at hdue

/-! ### Runs -/

theorem stepAt_extends (script : List TimerEvent → List TimerCall) (rounds : Nat)
    {tr : List TimerEvent} (h : tr <+: tm.trace) (acts : List TimerAction) :
    Ensures (exec (stepAt script rounds) tm acts) (fun tm' => tr <+: tm'.trace) fun _ => True := by
  have hstep : ∀ tm act, tr <+: tm.trace →
      Ensures (stepAt script rounds tm act) (fun tm' => tr <+: tm'.trace) fun _ => True := by
    intro tm act htm
    cases act with
    | call e => exact call_extends htm e
    | update c =>
      simp only [stepAt, updateAt]
      split
      · exact htm
      · exact loop_extends script (getNow c) rounds (prefix_record htm (.update c))
  exact exec_ensures hstep h acts

theorem stepAt_idle (h : Idle tm) {rounds : Nat} {act : TimerAction}
    (horderly : Orderly script rounds tm act) (hstep : stepAt script rounds tm act = .ok tm')
    (hclock : Clocked tm'.trace) : Idle tm' := by
  cases act with
  | call e =>
    cases e with
    | start c t q =>
      cases hstep
      obtain ⟨hheap, -⟩ := startTimer_isHeap h.inv h.heap c t (fresh_of_nodup hclock.distinct)
      exact ⟨h.inv.startTimer (by simp [Keeps, h.inv.running]), hheap⟩
    | cancel q =>
      obtain ⟨hinv, -⟩ := (h.inv.endTimer (q := q) (by simp [Keeps, h.inv.running])).of_ok hstep
      have hheap : IsHeap (tm.record (.cancelled q)).cmp (tm.record (.cancelled q)).minHeap :=
        h.heap
      exact ⟨hinv, (remove_isHeap hheap horderly).of_ok hstep⟩
  | update c => exact (updateAt_settled h hstep hclock horderly).1

/-- An orderly run keeps the queue in order. -/
theorem idle_of_orderly {rounds : Nat} {acts : List TimerAction} (h : Idle tm)
    (horderly : Every (stepAt script rounds) (Orderly script rounds) tm acts)
    (hrun : exec (stepAt script rounds) tm acts = .ok tm') (hclock : Clocked tm'.trace) :
    Idle tm' := by
  induction acts generalizing tm with
  | nil =>
    cases hrun
    exact h
  | cons act acts ih =>
    obtain ⟨tm₁, hstep, hrest⟩ := exec_cons_eq_ok.mp hrun
    have hpre := (stepAt_extends script rounds List.prefix_rfl acts).of_ok hrest
    have h₁ := stepAt_idle h horderly.1 hstep (hclock.of_prefix hpre)
    exact ih h₁ (horderly.2 tm₁ hstep) hrest

theorem updateAt_stops (hs : Starter script) (c : Nat) (tm : Timer) :
    ∃ depth tm', ∀ rounds, depth ≤ rounds → updateAt script rounds c tm = .ok tm' := by
  by_cases hempty : tm.minHeap = []
  · exact ⟨0, tm, fun _ _ => if_pos hempty⟩
  · obtain ⟨depth, tm', hloop⟩ := loop_stops hs (getNow c) (tm.record (.update c))
    exact ⟨depth, tm', fun rounds hrounds => (if_neg hempty).trans (hloop rounds hrounds)⟩

/-- **When timers are on time.** An update comes to its end if the callbacks only
start timers, and finitely many. And after an orderly run it runs exactly the
pending timers whose delay has elapsed, if and only if for each of them that is
not cancelled meanwhile no wrap of the 32-bit clock comes between the update and
the time the timer is due. -/
theorem timers_on_time (script : List TimerEvent → List TimerCall) (rounds : Nat)
    (acts : List TimerAction) {tm : Timer} (hrun : exec (stepAt script rounds) {} acts = .ok tm)
    (c : Nat) :
    (Starter script → ∃ depth tm', ∀ rounds', depth ≤ rounds' →
      updateAt script rounds' c tm = .ok tm') ∧
    ∀ tm', updateAt script rounds c tm = .ok tm' → Clocked tm'.trace →
      Every (stepAt script rounds) (Orderly script rounds) {} (acts ++ [.update c]) →
      ((∃ tr, Punctual c tm tm' tr) ↔
        ∀ s t h, .started s t h ∈ tm.trace → h ∈ tm.minHeap → h ∉ cancelled tm'.trace →
          NoWrap c (s + t)) := by
  refine ⟨fun hs => updateAt_stops hs c tm, ?_⟩
  intro tm' hupdate hclock horderly
  obtain ⟨hpast, hlast, -⟩ := (every_append hrun [.update c]).mp horderly
  have hpre : tm.trace <+: tm'.trace :=
    (stepAt_extends script rounds List.prefix_rfl [.update c]).of_ok
      ((exec_singleton tm _).trans hupdate)
  have h := idle_of_orderly ⟨inv_empty, isHeap_nil⟩ hpast hrun (hclock.of_prefix hpre)
  obtain ⟨h', tr, hset⟩ := updateAt_settled h hupdate hclock hlast
  constructor
  · rintro ⟨tr', hpunctual⟩
    obtain rfl : tr' = tr := List.append_cancel_left (hpunctual.trace.symm.trans hset.trace)
    intro s t q hstarted hqueued hun
    exact hset.noWrap_of_punctual h' hclock hpunctual hstarted hqueued hun
  · intro hclear
    exact ⟨tr, hset.punctual h h' hclock hclear⟩

theorem everyCall_of_silent {now rounds : Nat} {P : Nat → Timer → TimerCall → Prop} (tm : Timer) :
    EveryCall (fun _ => []) now P rounds tm := by
  induction rounds generalizing tm with
  | zero => trivial
  | succ rounds ih =>
    simp only [EveryCall]
    split
    · trivial
    · exact fun _ => ⟨trivial, fun _ tm₂ _ _ => ih tm₂⟩

/-- Two timers started after the clock has wrapped, one of which is due. -/
theorem timers_on_time_wrapped :
    ∃ tm tm' tr,
      exec (stepAt (fun _ => []) 9) {}
        [.call (.start (2 ^ 32 + 5) 3 1), .call (.start (2 ^ 32 + 6) 20 2)] = .ok tm ∧
      updateAt (fun _ => []) 9 (2 ^ 32 + 9) tm = .ok tm' ∧ fired tr = [1] ∧
      Punctual (2 ^ 32 + 9) tm tm' tr := by
  have hclock : Clocked [.started (2 ^ 32 + 5) 3 1, .started (2 ^ 32 + 6) 20 2,
      .update (2 ^ 32 + 9), .fired 1, .popped 1] := by
    refine ⟨by decide, by decide, ?_⟩
    intro c t h hmem
    simp only [List.mem_cons, TimerEvent.started.injEq] at hmem
    rcases hmem with ⟨-, rfl, -⟩ | ⟨-, rfl, -⟩ | hmem
    · decide
    · decide
    · simp at hmem
  have hpunctual := ((timers_on_time (fun _ => []) 9
    [.call (.start (2 ^ 32 + 5) 3 1), .call (.start (2 ^ 32 + 6) 20 2)] rfl (2 ^ 32 + 9)).2 _ rfl
    hclock ?_).mpr ?_
  · obtain ⟨tr, hpunctual⟩ := hpunctual
    obtain rfl : tr = [.update (2 ^ 32 + 9), .fired 1, .popped 1] :=
      List.append_cancel_left hpunctual.trace.symm
    exact ⟨_, _, _, rfl, rfl, rfl, hpunctual⟩
  · exact ⟨trivial, fun _ _ => ⟨trivial, fun _ _ => ⟨everyCall_of_silent _, fun _ _ => trivial⟩⟩⟩
  · intro s t h hmem _ _
    change TimerEvent.started s t h ∈
      [.started (2 ^ 32 + 5) 3 1, .started (2 ^ 32 + 6) 20 2] at hmem
    simp only [List.mem_cons, TimerEvent.started.injEq, List.not_mem_nil, or_false] at hmem
    rcases hmem with ⟨rfl, rfl, -⟩ | ⟨rfl, rfl, -⟩
    · decide
    · decide

/-- A timer that is due after the next wrap runs at once. -/
theorem timers_on_time_early :
    ¬ ∀ (script : List TimerEvent → List TimerCall) (rounds : Nat) (acts : List TimerAction)
      (tm tm' : Timer) (c : Nat), exec (stepAt script rounds) {} acts = .ok tm →
      updateAt script rounds c tm = .ok tm' → Clocked tm'.trace → ∃ tr, Punctual c tm tm' tr := by
  intro h
  have hclock :
      Clocked [.started (2 ^ 32 - 10) 20 1, .update (2 ^ 32 - 5), .fired 1, .popped 1] := by
    refine ⟨by decide, by decide, ?_⟩
    intro c t h hmem
    simp only [List.mem_cons, TimerEvent.started.injEq] at hmem
    rcases hmem with ⟨-, rfl, -⟩ | hmem
    · decide
    · simp at hmem
  obtain ⟨tr, hpunctual⟩ := h (fun _ => []) 9 [.call (.start (2 ^ 32 - 10) 20 1)] _ _
    (2 ^ 32 - 5) rfl rfl hclock
  obtain rfl : tr = [.update (2 ^ 32 - 5), .fired 1, .popped 1] :=
    List.append_cancel_left hpunctual.trace.symm
  have hearly := hpunctual.notEarly (2 ^ 32 - 10) 20 1 List.mem_cons_self (by simp [fired])
  exact absurd hearly (by decide)

end MixServer.Net.Timer
