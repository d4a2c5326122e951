import MixServer.Net.TimerQueue

/-!
What one `Timer::update` does when nothing is cancelled.

The callbacks of a `Starter` only start timers, and only finitely many. Then
every `update` returns (`loop_stops`), and with distinct handles, a clock that
does not go back and sums below `2 ^ 32` (`Legal`) it runs exactly the timers
that are due (`update_fires_due`). The loop invariant is `Mid`: the queue is a
heap, and whatever has fired in this update is due and expires no later than
everything still queued.
-/

namespace MixServer.Net.Timer

open Lib Lib.Heap

variable {tm tm₀ : Timer}

/-- A call that starts a timer. -/
def IsStart : TimerCall → Prop
  | .start _ _ _ => True
  | .cancel _ => False

/-- Callbacks that only start timers, and only finitely many. -/
structure Starter (script : List TimerEvent → List TimerCall) : Prop where
  only : ∀ tr, ∀ c ∈ script tr, IsStart c
  finite : ∃ n, ∀ tr, n ≤ (fired tr).length → script tr = []

/-- The program outside the callbacks only starts timers and calls `update`. -/
def OnlyStarts : TimerAction → Prop
  | .call c => IsStart c
  | .update _ => True

/-- An expiry does not reach `2 ^ 32`. -/
def Small : TimerEvent → Prop
  | .started now t _ => now + t < 2 ^ 32
  | _ => True

instance (e : TimerEvent) : Decidable (Small e) :=
  match e with
  | .started _ _ _ => inferInstanceAs (Decidable (_ < _))
  | .cancelled _ | .update _ | .fired _ | .popped _ => .isTrue trivial

/-- Every handle is started once, the clock does not go back, and all expiries
are small. -/
structure Legal (tr : List TimerEvent) : Prop where
  distinct : (started tr).Nodup
  clock : (readings tr).Pairwise (· ≤ ·)
  small : ∀ e ∈ tr, Small e

theorem Legal.of_append {tr tr' : List TimerEvent} (h : Legal (tr ++ tr')) : Legal tr where
  distinct := by
    have hdistinct := h.distinct
    rw [started_append] at hdistinct
    exact (List.nodup_append.mp hdistinct).1
  clock := by
    have hclock := h.clock
    rw [readings_append] at hclock
    exact (List.pairwise_append.mp hclock).1
  small e he := h.small e (List.mem_append_left _ he)

/-! ### `update` returns -/

/-- Calls that start timers do not fail; they fire nothing and only make the
queue longer. -/
theorem exec_starts {calls : List TimerCall} (hcalls : ∀ c ∈ calls, IsStart c) (tm : Timer) :
    ∃ tm', exec call tm calls = .ok tm' ∧ fired tm'.trace = fired tm.trace ∧
      tm.minHeap.length ≤ tm'.minHeap.length := by
  induction calls generalizing tm with
  | nil => exact ⟨tm, rfl, rfl, Nat.le_refl _⟩
  | cons c calls ih =>
    have hc := hcalls c List.mem_cons_self
    cases c with
    | cancel q => exact hc.elim
    | start now t q =>
      obtain ⟨tm', hexec, hfired, hlen⟩ :=
        ih (fun c hc => hcalls c (List.mem_cons_of_mem _ hc)) (tm.startTimer now t q)
      refine ⟨tm', ?_, ?_, ?_⟩
      · rw [exec_cons_ok rfl]
        exact hexec
      · rw [hfired]
        change fired (tm.trace ++ [_]) = _
        simp [fired]
      · have hpush : (tm.startTimer now t q).minHeap.length = tm.minHeap.length + 1 :=
          (pushHeap_perm _ _ _).length_eq
        omega

variable {script : List TimerEvent → List TimerCall}

/-- One round of the loop. -/
theorem round_ok (hs : Starter script) {p : Nat} {rest : List Nat}
    (hheap : tm.minHeap = p :: rest) :
    ∃ tm₁ tm', tm.callback script p = .ok tm₁ ∧ tm₁.pop = .ok tm' ∧
      fired tm'.trace = fired tm.trace ++ [p] ∧
      (script (tm.trace ++ [.fired p]) = [] → tm'.minHeap.length = rest.length) := by
  obtain ⟨tm₁, hcall, hfired, hlen⟩ := exec_starts (hs.only (tm.trace ++ [.fired p]))
    (tm.record (.fired p))
  have hlen₁ : rest.length + 1 ≤ tm₁.minHeap.length := by
    have : (tm.record (.fired p)).minHeap.length = rest.length + 1 := by
      change tm.minHeap.length = _
      rw [hheap, List.length_cons]
    omega
  cases hheap₁ : tm₁.minHeap with
  | nil => simp [hheap₁] at hlen₁
  | cons f rest₁ =>
    have hperm := popHeap_perm tm₁.cmp f rest₁
    refine ⟨tm₁, { tm₁.record (.popped f) with minHeap := popHeap tm₁.cmp (f :: rest₁) }, hcall,
      by simp only [pop, hheap₁], ?_, ?_⟩
    · change fired (tm₁.trace ++ [_]) = _
      rw [fired_append, hfired]
      change fired (tm.trace ++ [_]) ++ [] = _
      simp [fired]
    · intro hnone
      rw [hnone] at hcall
      cases hcall
      have hsame : p :: rest = f :: rest₁ := hheap.symm.trans hheap₁
      cases hsame
      exact hperm.length_eq

theorem loop_cons {p : Nat} {rest : List Nat} (hheap : tm.minHeap = p :: rest) {now : Nat}
    (hdue : tm.expired p ≤ now) (rounds : Nat) :
    loop script now (rounds + 1) tm =
      (tm.callback script p).bind fun tm => tm.pop.bind (loop script now rounds) := by
  have hmin : tm.getMin ≤ now := by simpa only [getMin, hheap] using hdue
  simp only [loop, hheap, if_pos hmin]
  rfl

/-- With enough rounds the loop comes to its end. -/
def Stops (script : List TimerEvent → List TimerCall) (now : Nat) (tm : Timer) : Prop :=
  ∃ depth tm', ∀ rounds, depth ≤ rounds → loop script now rounds tm = .ok tm'

/-- The loop stops if it does from wherever one round leads. -/
theorem stops_of_round (hs : Starter script) {now : Nat}
    (hround : ∀ p rest tm', tm.minHeap = p :: rest →
      fired tm'.trace = fired tm.trace ++ [p] →
      (script (tm.trace ++ [.fired p]) = [] → tm'.minHeap.length = rest.length) →
      Stops script now tm') : Stops script now tm := by
  have hfree : ∀ rounds, 1 ≤ rounds → ∃ k, rounds = k + 1 := by
    intro rounds hrounds
    exact ⟨rounds - 1, by omega⟩
  cases hheap : tm.minHeap with
  | nil =>
    refine ⟨1, tm, ?_⟩
    intro rounds hrounds
    obtain ⟨k, rfl⟩ := hfree rounds hrounds
    simp only [loop, hheap]
  | cons p rest =>
    by_cases hdue : tm.expired p ≤ now
    · obtain ⟨tm₁, tm', hcall, hpop, hfired, hlen⟩ := round_ok hs hheap
      obtain ⟨depth, tm'', hloop⟩ := hround p rest tm' hheap hfired hlen
      refine ⟨depth + 1, tm'', ?_⟩
      intro rounds hrounds
      obtain ⟨k, rfl⟩ := hfree rounds (by omega)
      rw [loop_cons hheap hdue, hcall]
      change tm₁.pop.bind _ = _
      rw [hpop]
      exact hloop k (by omega)
    · refine ⟨1, tm, ?_⟩
      intro rounds hrounds
      obtain ⟨k, rfl⟩ := hfree rounds hrounds
      simp only [loop, hheap, getMin, if_neg hdue]

/-- The loop comes to its end: first the callbacks stop starting timers, then
the queue gets shorter. -/
theorem loop_stops (hs : Starter script) (now : Nat) (tm : Timer) : Stops script now tm := by
  obtain ⟨n, hn⟩ := hs.finite
  have hidle : ∀ len tm, tm.minHeap.length = len → n ≤ (fired tm.trace).length →
      Stops script now tm := by
    intro len
    induction len with
    | zero =>
      intro tm hlen _
      apply stops_of_round hs
      intro p rest tm' hheap
      simp [hheap] at hlen
    | succ len ih =>
      intro tm hlen hfired
      apply stops_of_round hs
      intro p rest tm' hheap hfired' hlen'
      have hnone : script (tm.trace ++ [.fired p]) = [] := by
        apply hn
        rw [fired_append, List.length_append]
        omega
      apply ih tm'
      · rw [hlen' hnone]
        simpa [hheap] using hlen
      · rw [hfired', List.length_append]
        omega
  have hbusy : ∀ left tm, n - (fired tm.trace).length = left → Stops script now tm := by
    intro left
    induction left with
    | zero =>
      intro tm hleft
      exact hidle _ tm rfl (by omega)
    | succ left ih =>
      intro tm hleft
      apply stops_of_round hs
      intro p rest tm' hheap hfired' _
      apply ih tm'
      rw [hfired', List.length_append, List.length_singleton]
      omega
  exact hbusy _ tm rfl

/-! ### The loop invariant -/

theorem strictWeak_cmp (tm : Timer) : StrictWeak tm.cmp :=
  .of_key tm.expired

variable {now p : Nat} {tr : List TimerEvent} {r : Option Nat}

/-- A handle that has fired was started. -/
theorem Inv.fired_started (h : Inv r tm) {f : Nat} (hf : f ∈ fired tm.trace) :
    f ∈ started tm.trace := by
  rw [fired_of_running h.running, List.mem_append] at hf
  rcases hf with hf | hf
  · exact h.mem_started (.inr hf)
  · have hfront := h.front f (Option.mem_toList.mp hf)
    exact h.mem_started (.inl (List.mem_of_mem_head? hfront))

/-- The heap order is the order of the expiries of the queued handles. -/
theorem isHeap_congr {tm' : Timer} {v : List Nat} (h : IsHeap tm.cmp v)
    (hexp : ∀ q ∈ v, tm'.expired q = tm.expired q) : IsHeap tm'.cmp v := by
  apply h.congr
  intro a ha b hb
  simp only [cmp, hexp a ha, hexp b hb]

/-- A handle started once was not started before. -/
theorem fresh_of_nodup {now' t q : Nat} (h : (started (tr ++ [.started now' t q])).Nodup) :
    q ∉ started tr := by
  intro hq
  rw [started_append] at h
  exact (List.nodup_append.mp h).2.2 q hq q (by simp [started]) rfl

/-- Starting a fresh handle keeps the heap and the expiries of all others. -/
theorem startTimer_isHeap (h : Inv r tm) (hheap : IsHeap tm.cmp tm.minHeap) (now' t : Nat)
    {q : Nat} (hfresh : q ∉ started tm.trace) :
    IsHeap (tm.startTimer now' t q).cmp (tm.startTimer now' t q).minHeap ∧
      ∀ x ∈ started tm.trace, (tm.startTimer now' t q).expired x = tm.expired x := by
  have hothers : ∀ x ∈ started tm.trace, (tm.startTimer now' t q).expired x = tm.expired x := by
    intro x hx
    rw [expired_startTimer, if_neg]
    rintro rfl
    exact hfresh hx
  refine ⟨?_, hothers⟩
  apply pushHeap_isHeap (strictWeak_cmp _)
  exact isHeap_congr hheap fun x hx => hothers x (h.mem_started (.inl hx))

/-- The events `tr` of an update that compares with `now` and began with the
timer `tm₀`, while the callback `r` runs. -/
structure Within (tm₀ : Timer) (now : Nat) (tr : List TimerEvent) (r : Option Nat) (tm : Timer) :
    Prop where
  trace : tm.trace = tm₀.trace ++ tr
  inv : Inv r tm
  heap : IsHeap tm.cmp tm.minHeap
  due : ∀ f ∈ fired tr, tm.expired f ≤ now

theorem Within.fired_started (h : Within tm₀ now tr r tm) {f : Nat} (hf : f ∈ fired tr) :
    f ∈ started tm.trace := by
  apply h.inv.fired_started
  rw [h.trace, fired_append]
  exact List.mem_append_right _ hf

/-- A callback starts a timer that does not get in front of its own. -/
theorem Within.start (h : Within tm₀ now tr r tm) {now' t q : Nat}
    (hfresh : q ∉ started tm.trace) (hkeeps : Keeps tm.trace (.started now' t q)) :
    Within tm₀ now (tr ++ [.started now' t q]) r (tm.startTimer now' t q) := by
  obtain ⟨hheap, hold⟩ := startTimer_isHeap h.inv h.heap now' t hfresh
  constructor
  · change tm.trace ++ [_] = _
    rw [h.trace, List.append_assoc]
  · exact h.inv.startTimer hkeeps
  · exact hheap
  · intro f hf
    rw [fired_append] at hf
    have hf : f ∈ fired tr := by simpa [fired] using hf
    rw [hold f (h.fired_started hf)]
    exact h.due f hf

/-- The front is due and its callback starts. -/
theorem Within.fire (h : Within tm₀ now tr none tm) {rest : List Nat}
    (hheap : tm.minHeap = p :: rest) (hdue : tm.expired p ≤ now) :
    Within tm₀ now (tr ++ [.fired p]) (some p) (tm.record (.fired p)) := by
  constructor
  · change tm.trace ++ [_] = _
    rw [h.trace, List.append_assoc]
  · exact h.inv.fire (by rw [hheap]; rfl)
  · exact h.heap
  · intro f hf
    rw [fired_append] at hf
    rcases List.mem_append.mp hf with hf | hf
    · exact h.due f hf
    · obtain rfl := List.mem_singleton.mp hf
      exact hdue

/-- The callback has returned and its handle is removed. -/
theorem Within.pop (h : Within tm₀ now tr (some p) tm) :
    ∃ tm', tm.pop = .ok tm' ∧ Within tm₀ now (tr ++ [.popped p]) none tm' ∧
      (∀ x, tm'.expired x = tm.expired x) ∧ (p :: tm'.minHeap).Perm tm.minHeap := by
  obtain ⟨tm', hpop, hinv, htrace, hobjs, hmin, hperm⟩ := h.inv.pop
  have hexp : ∀ x, tm'.expired x = tm.expired x := fun x => by rw [expired, hobjs]; rfl
  refine ⟨tm', hpop, ?_, hexp, hperm⟩
  constructor
  · rw [htrace, h.trace, List.append_assoc]
  · exact hinv
  · have hpopped : IsHeap tm.cmp tm'.minHeap := by
      have hheap := h.heap
      have hfront := h.inv.front p rfl
      rw [hmin]
      cases hcons : tm.minHeap with
      | nil => simp [hcons] at hfront
      | cons f rest =>
        rw [hcons] at hheap
        exact popHeap_isHeap (strictWeak_cmp tm) hheap
    exact isHeap_congr hpopped fun q _ => hexp q
  · intro f hf
    rw [fired_append] at hf
    rw [hexp]
    exact h.due f (by simpa [fired] using hf)

/-- What is queued when nothing more is due expires later. -/
theorem late_of_front {rest : List Nat} (hheap : IsHeap tm.cmp (p :: rest))
    (hlate : ¬ tm.expired p ≤ now) : ∀ q ∈ p :: rest, now < tm.expired q := by
  intro q hq
  have hfront := hheap.front_le (strictWeak_cmp _) hq
  simp only [cmp, decide_eq_false_iff_not] at hfront
  omega

/-- The events `tr` of an update at the clock value `now` that began with the
timer `tm₀`, while the callback `r` runs. -/
structure Mid (tm₀ : Timer) (now : Nat) (tr : List TimerEvent) (r : Option Nat) (tm : Timer) :
    Prop where
  trace : tm.trace = tm₀.trace ++ tr
  inv : Inv r tm
  heap : IsHeap tm.cmp tm.minHeap
  read : now ∈ readings tr
  uncancelled : cancelled tr = []
  due : ∀ f ∈ fired tr, tm.expired f ≤ now
  inOrder : (fired tr).Pairwise fun f g => tm.expired f ≤ tm.expired g
  later : ∀ f ∈ fired tr, ∀ q ∈ tm.minHeap, tm.expired f ≤ tm.expired q

theorem Mid.within (h : Mid tm₀ now tr r tm) : Within tm₀ now tr r tm :=
  ⟨h.trace, h.inv, h.heap, h.due⟩

/-- One more event that is no `end_timer`: what is left to say is the order. -/
theorem Mid.next (h : Mid tm₀ now tr r tm) {e : TimerEvent} {r' : Option Nat} {tm' : Timer}
    (hwithin : Within tm₀ now (tr ++ [e]) r' tm') (hkept : cancelled [e] = [])
    (hinOrder : (fired (tr ++ [e])).Pairwise fun f g => tm'.expired f ≤ tm'.expired g)
    (hlater : ∀ f ∈ fired (tr ++ [e]), ∀ q ∈ tm'.minHeap, tm'.expired f ≤ tm'.expired q) :
    Mid tm₀ now (tr ++ [e]) r' tm' where
  trace := hwithin.trace
  inv := hwithin.inv
  heap := hwithin.heap
  read := by
    rw [readings_append]
    exact List.mem_append_left _ h.read
  uncancelled := by
    rw [cancelled_append, h.uncancelled, hkept]
    rfl
  due := hwithin.due
  inOrder := hinOrder
  later := hlater

/-- A callback starts a timer: it expires no earlier than `now`, so it does not
get in front of anything that has fired. -/
theorem Mid.start (h : Mid tm₀ now tr r tm) {now' t q : Nat}
    (hlegal : Legal (tm.startTimer now' t q).trace) (hr : ∀ p ∈ r, p ∈ fired tr) :
    Mid tm₀ now (tr ++ [.started now' t q]) r (tm.startTimer now' t q) := by
  have hfresh : q ∉ started tm.trace := fresh_of_nodup hlegal.distinct
  have hsmall : now' + t < 2 ^ 32 :=
    hlegal.small (.started now' t q) (List.mem_append_right _ List.mem_cons_self)
  have hclock : now ≤ now' := by
    have hpairs := hlegal.clock
    change (readings (tm.trace ++ [_])).Pairwise _ at hpairs
    rw [readings_append] at hpairs
    apply (List.pairwise_append.mp hpairs).2.2 now _ now' (by simp [readings])
    rw [h.trace, readings_append]
    exact List.mem_append_right _ h.read
  have hkeeps : Keeps tm.trace (.started now' t q) := by
    cases r with
    | none => simp [Keeps, h.inv.running]
    | some p =>
      simp only [Keeps, h.inv.running]
      right
      rw [← h.inv.expiries, u32, Nat.mod_eq_of_lt hsmall]
      have hdue := h.due p (hr p rfl)
      omega
  have hwithin := h.within.start hfresh hkeeps
  obtain ⟨-, hold⟩ := startTimer_isHeap h.inv h.heap now' t hfresh
  have hnew : (tm.startTimer now' t q).expired q = now' + t := by
    rw [expired_startTimer, if_pos rfl]
    exact Nat.mod_eq_of_lt hsmall
  have hsame : fired (tr ++ [.started now' t q]) = fired tr := by
    rw [fired_append]
    exact List.append_nil _
  apply h.next hwithin rfl
  · rw [hsame]
    apply h.inOrder.imp_of_mem
    intro f g hf hg hle
    rwa [hold f (h.within.fired_started hf), hold g (h.within.fired_started hg)]
  · rw [hsame]
    intro f hf x hx
    rw [hold f (h.within.fired_started hf)]
    have hx' : x ∈ q :: tm.minHeap := (pushHeap_perm _ _ _).subset hx
    rcases List.mem_cons.mp hx' with rfl | hx'
    · rw [hnew]
      have := h.due f hf
      omega
    · rw [hold x (h.inv.mem_started (.inl hx'))]
      exact h.later f hf x hx'

/-- The front is due and its callback starts. -/
theorem Mid.fire (h : Mid tm₀ now tr none tm) {rest : List Nat} (hheap : tm.minHeap = p :: rest)
    (hdue : tm.expired p ≤ now) :
    Mid tm₀ now (tr ++ [.fired p]) (some p) (tm.record (.fired p)) := by
  have hsnoc : fired (tr ++ [.fired p]) = fired tr ++ [p] := fired_append _ _
  have hp : p ∈ tm.minHeap := by
    rw [hheap]
    exact List.mem_cons_self
  apply h.next (h.within.fire hheap hdue) rfl
  · rw [hsnoc]
    apply List.pairwise_append.mpr
    refine ⟨h.inOrder, List.pairwise_singleton _ _, ?_⟩
    intro f hf g hg
    obtain rfl := List.mem_singleton.mp hg
    exact h.later f hf g hp
  · rw [hsnoc]
    intro f hf q hq
    rcases List.mem_append.mp hf with hf | hf
    · exact h.later f hf q hq
    · obtain rfl := List.mem_singleton.mp hf
      have hheap' := h.heap
      rw [hheap] at hheap'
      change q ∈ tm.minHeap at hq
      rw [hheap] at hq
      have hfront := hheap'.front_le (strictWeak_cmp tm) hq
      change tm.expired f ≤ tm.expired q
      simpa [cmp] using hfront

/-- The callback has returned and its handle is removed. -/
theorem Mid.pop (h : Mid tm₀ now tr (some p) tm) :
    ∃ tm', tm.pop = .ok tm' ∧ Mid tm₀ now (tr ++ [.popped p]) none tm' := by
  obtain ⟨tm', hpop, hwithin, hexp, hperm⟩ := h.within.pop
  have hsame : fired (tr ++ [.popped p]) = fired tr := by
    rw [fired_append]
    exact List.append_nil _
  refine ⟨tm', hpop, h.next hwithin rfl ?_ ?_⟩
  · rw [hsame]
    apply h.inOrder.imp
    intro f g hle
    rwa [hexp, hexp]
  · rw [hsame]
    intro f hf q hq
    rw [hexp, hexp]
    exact h.later f hf q (hperm.subset (List.mem_cons_of_mem _ hq))

/-! ### Whole updates -/

theorem Legal.of_prefix {tr tr' : List TimerEvent} (h : Legal tr') (hpre : tr <+: tr') :
    Legal tr := by
  obtain ⟨rest, rfl⟩ := hpre
  exact h.of_append

/-- The calls of a callback. -/
theorem calls_mid {calls : List TimerCall} (hcalls : ∀ c ∈ calls, IsStart c) {tm' : Timer}
    (hexec : exec call tm calls = .ok tm') (hlegal : Legal tm'.trace)
    (h : Mid tm₀ now tr (some p) tm) (hp : p ∈ fired tr) :
    ∃ tr', Mid tm₀ now tr' (some p) tm' := by
  induction calls generalizing tm tr with
  | nil =>
    cases hexec
    exact ⟨tr, h⟩
  | cons c calls ih =>
    have hc := hcalls c List.mem_cons_self
    cases c with
    | cancel q => exact hc.elim
    | start now' t q =>
      rw [exec_cons_ok rfl] at hexec
      have hpre := (calls_extend List.prefix_rfl calls).of_ok hexec
      refine ih (fun c hc => hcalls c (List.mem_cons_of_mem _ hc)) hexec
        (h.start (hlegal.of_prefix hpre) ?_) ?_
      · rintro p' ⟨⟩
        exact hp
      · rw [fired_append]
        exact List.mem_append_left _ hp

/-- The loop, round by round; where it ends, nothing queued is due. -/
theorem loop_mid (hs : Starter script) {rounds : Nat} {tm' : Timer}
    (hloop : loop script now rounds tm = .ok tm') (hlegal : Legal tm'.trace)
    (h : Mid tm₀ now tr none tm) :
    ∃ tr', Mid tm₀ now tr' none tm' ∧ ∀ q ∈ tm'.minHeap, now < tm'.expired q := by
  induction rounds generalizing tm tr with
  | zero => cases hloop
  | succ rounds ih =>
    cases hheap : tm.minHeap with
    | nil =>
      simp only [loop, hheap] at hloop
      cases hloop
      refine ⟨tr, h, ?_⟩
      intro q hq
      rw [hheap] at hq
      cases hq
    | cons p rest =>
      by_cases hdue : tm.expired p ≤ now
      · rw [loop_cons hheap hdue] at hloop
        obtain ⟨tm₁, tm₂, hcall, hpop, -⟩ := round_ok hs hheap
        rw [hcall] at hloop
        change tm₁.pop.bind _ = _ at hloop
        rw [hpop] at hloop
        change loop script now rounds tm₂ = _ at hloop
        have hpre₂ := (loop_extends script now rounds List.prefix_rfl).of_ok hloop
        have hpre₁ := (pop_extends List.prefix_rfl).of_ok hpop
        obtain ⟨tr₁, hmid₁⟩ := calls_mid (hs.only _) hcall
          (hlegal.of_prefix (hpre₁.trans hpre₂)) (h.fire hheap hdue) (by simp [fired])
        obtain ⟨tm₂', hpop', hmid₂⟩ := hmid₁.pop
        rw [hpop] at hpop'
        cases hpop'
        exact ih hloop hmid₂
      · simp only [loop, hheap, getMin, if_neg hdue] at hloop
        cases hloop
        refine ⟨tr, h, ?_⟩
        have hheap' := h.heap
        rw [hheap] at hheap' ⊢
        exact late_of_front hheap' hdue

/-- What one `update` at the clock value `now` does to the timer `tm`; `tr` is
what happens in it. -/
structure Fires (now : Nat) (tm tm' : Timer) (tr : List TimerEvent) : Prop where
  trace : tm'.trace = tm.trace ++ tr
  /-- The callbacks of the timers that are due run, those started meanwhile included. -/
  exactly : (fired tr).Perm
    ((tm.minHeap ++ started tr).filter fun h => tm'.expired h ≤ now)
  once : (fired tr).Nodup
  inOrder : (fired tr).Pairwise fun f g => tm'.expired f ≤ tm'.expired g
  /-- Each `pop` has removed the handle whose callback had just run. -/
  paired : running tm'.trace = some none
  /-- All other timers stay. -/
  stays : tm'.minHeap.Perm ((tm.minHeap ++ started tr).filter fun h => now < tm'.expired h)
  unchanged : ∀ h ∈ tm.minHeap, tm'.expired h = tm.expired h
  asStarted : ∀ now' t h, .started now' t h ∈ tr → tm'.expired h = now' + t

/-- Between updates: the queue is a heap. -/
structure Idle (tm : Timer) : Prop where
  inv : Inv none tm
  heap : IsHeap tm.cmp tm.minHeap

/-- What is queued, has been popped and has been cancelled, before and after the
events `tr`. -/
theorem account_between {tm' : Timer} (h₀ : Inv none tm₀) (h : Inv none tm')
    (htrace : tm'.trace = tm₀.trace ++ tr) :
    popped tr = fired tr ∧
      (fired tr ++ (tm'.minHeap ++ cancelled tr)).Perm (tm₀.minHeap ++ started tr) := by
  have hfired := fired_of_running h.running
  rw [htrace, fired_append, popped_append, fired_of_running h₀.running] at hfired
  have hpopped : popped tr = fired tr := by
    simpa using hfired.symm
  refine ⟨hpopped, ?_⟩
  have haccount := h.account
  rw [htrace, started_append, popped_append, cancelled_append, hpopped] at haccount
  have hboth := haccount.trans (h₀.account.append_right (started tr)).symm
  rw [List.perm_iff_count] at hboth ⊢
  intro a
  have ha := hboth a
  simp only [List.count_append] at ha ⊢
  omega

/-- The handles that are pending before and during the events `tr` are distinct. -/
theorem Inv.nodup_pending (h : Inv none tm) (hdistinct : (started (tm.trace ++ tr)).Nodup) :
    (tm.minHeap ++ started tr).Nodup := by
  rw [started_append] at hdistinct
  obtain ⟨hbefore, hnew, hapart⟩ := List.nodup_append.mp hdistinct
  have hqueued := (List.nodup_append.mp (h.account.symm.nodup hbefore)).1
  refine List.nodup_append.mpr ⟨hqueued, hnew, ?_⟩
  intro q hq
  exact hapart q (h.mem_started (.inl hq))

/-- An update that finds nothing queued. -/
theorem Idle.fires_nothing (h : Idle tm) (hempty : tm.minHeap = []) : Fires now tm tm [] := by
  constructor
  · exact (List.append_nil _).symm
  · simp [fired, started, hempty]
  · exact List.nodup_nil
  · exact List.Pairwise.nil
  · exact h.inv.running
  · simp [started, hempty]
  · exact fun _ _ => rfl
  · intro now' t q hq
    cases hq

/-- An update has begun. -/
theorem Idle.mid (h : Idle tm) (now : Nat) :
    Mid tm now [.update now] none (tm.record (.update now)) := by
  constructor
  · rfl
  · exact h.inv.beginUpdate now
  · exact h.heap
  · simp [readings]
  · rfl
  · intro f hf
    cases hf
  · exact List.Pairwise.nil
  · intro f hf
    cases hf

/-- At the end of an update only those are queued that are not due. -/
theorem Mid.fires {tm' : Timer} (hmid : Mid tm now tr none tm') (h : Idle tm)
    (hlegal : Legal tm'.trace) (hlate : ∀ q ∈ tm'.minHeap, now < tm'.expired q) :
    Fires now tm tm' tr := by
  obtain ⟨-, haccount⟩ := account_between h.inv hmid.inv hmid.trace
  rw [hmid.uncancelled, List.append_nil] at haccount
  have hdistinct := hlegal.distinct
  rw [hmid.trace, started_append] at hdistinct
  constructor
  · exact hmid.trace
  · have hfilter := haccount.filter fun q => decide (tm'.expired q ≤ now)
    rw [List.filter_append, List.filter_eq_self.mpr (by simpa using hmid.due),
      List.filter_eq_nil_iff.mpr (by simpa using hlate), List.append_nil] at hfilter
    exact hfilter
  · have hall : (tm.minHeap ++ started tr).Nodup :=
      h.inv.nodup_pending (by rwa [started_append])
    exact (List.nodup_append.mp (haccount.symm.nodup hall)).1
  · exact hmid.inOrder
  · exact hmid.inv.running
  · have hfilter := haccount.filter fun q => decide (now < tm'.expired q)
    rw [List.filter_append, List.filter_eq_nil_iff.mpr (by simpa using hmid.due),
      List.filter_eq_self.mpr (by simpa using hlate), List.nil_append] at hfilter
    exact hfilter
  · intro q hq
    rw [hmid.inv.expiries, h.inv.expiries, hmid.trace, expiry_append]
    intro hnew
    exact (List.nodup_append.mp hdistinct).2.2 q (h.inv.mem_started (.inl hq)) q hnew rfl
  · intro now' t q hq
    have hmem : .started now' t q ∈ tm'.trace := by
      rw [hmid.trace]
      exact List.mem_append_right _ hq
    rw [hmid.inv.expiries, expiry_started hlegal.distinct hmem, u32,
      Nat.mod_eq_of_lt (hlegal.small _ hmem)]

/-- One update from a queue that is in order. -/
theorem update_fires (hs : Starter script) {rounds : Nat} {tm' : Timer} (h : Idle tm)
    (hrun : tm.update script rounds now = .ok tm') (hlegal : Legal tm'.trace) :
    Idle tm' ∧ ∃ tr, Fires now tm tm' tr := by
  simp only [update] at hrun
  split at hrun
  · rename_i hempty
    cases hrun
    exact ⟨h, [], h.fires_nothing hempty⟩
  · obtain ⟨tr, hmid, hlate⟩ := loop_mid hs hrun hlegal (h.mid now)
    exact ⟨⟨hmid.inv, hmid.heap⟩, tr, hmid.fires h hlegal hlate⟩

/-! ### Runs -/

theorem update_stops (hs : Starter script) (now : Nat) (tm : Timer) :
    ∃ depth tm', ∀ rounds, depth ≤ rounds → tm.update script rounds now = .ok tm' := by
  by_cases hempty : tm.minHeap = []
  · exact ⟨0, tm, fun _ _ => if_pos hempty⟩
  · obtain ⟨depth, tm', hloop⟩ := loop_stops hs now (tm.record (.update now))
    exact ⟨depth, tm', fun rounds hrounds => (if_neg hempty).trans (hloop rounds hrounds)⟩

theorem run_stops (hs : Starter script) {acts : List TimerAction}
    (hacts : ∀ act ∈ acts, OnlyStarts act) (tm : Timer) :
    ∃ depth tm', ∀ rounds, depth ≤ rounds → exec (step script rounds) tm acts = .ok tm' := by
  induction acts generalizing tm with
  | nil => exact ⟨0, tm, fun _ _ => rfl⟩
  | cons act acts ih =>
    have hstep : ∃ depth tm₁, ∀ rounds, depth ≤ rounds → step script rounds tm act = .ok tm₁ := by
      cases act with
      | call c =>
        cases c with
        | start now t q => exact ⟨0, tm.startTimer now t q, fun _ _ => rfl⟩
        | cancel q => exact (hacts _ List.mem_cons_self).elim
      | update now => exact update_stops hs now tm
    obtain ⟨depth, tm₁, hstep⟩ := hstep
    obtain ⟨depth', tm', hrest⟩ := ih (fun a ha => hacts a (List.mem_cons_of_mem _ ha)) tm₁
    refine ⟨max depth depth', tm', ?_⟩
    intro rounds hrounds
    rw [exec_cons_ok (hstep rounds (le_of_max_le_left hrounds))]
    exact hrest rounds (le_of_max_le_right hrounds)

/-- A legal run keeps the queue in order. -/
theorem run_idle (hs : Starter script) {rounds : Nat} {acts : List TimerAction}
    (hacts : ∀ act ∈ acts, OnlyStarts act) {tm' : Timer}
    (hrun : exec (step script rounds) tm acts = .ok tm') (hlegal : Legal tm'.trace)
    (h : Idle tm) : Idle tm' := by
  induction acts generalizing tm with
  | nil =>
    cases hrun
    exact h
  | cons act acts ih =>
    have hrest := fun a ha => hacts a (List.mem_cons_of_mem act ha)
    cases act with
    | call c =>
      cases c with
      | cancel q => exact (hacts _ List.mem_cons_self).elim
      | start now t q =>
        rw [exec_cons_ok rfl] at hrun
        have hpre := (run_extends script rounds List.prefix_rfl acts).of_ok hrun
        obtain ⟨hheap, -⟩ := startTimer_isHeap h.inv h.heap now t
          (fresh_of_nodup (hlegal.of_prefix hpre).distinct)
        refine ih hrest hrun ⟨h.inv.startTimer ?_, hheap⟩
        simp [Keeps, h.inv.running]
    | update now =>
      obtain ⟨tm₁, hstep, hrun₁⟩ := exec_cons_eq_ok.mp hrun
      have hpre := (run_extends script rounds List.prefix_rfl acts).of_ok hrun₁
      exact ih hrest hrun₁ (update_fires hs h hstep (hlegal.of_prefix hpre)).1

/-- **Every timer fires exactly once and in order.** After any starts and
updates, the next `update` returns; and if all handles are distinct, the clock
does not go back and no expiry reaches `2 ^ 32`, then it runs the callbacks of
the timers that are due, those started meanwhile included, each once and in the
order of their expiries, and leaves all others in the queue as they are. -/
theorem update_fires_due (hs : Starter script) {acts : List TimerAction}
    (hacts : ∀ act ∈ acts, OnlyStarts act) (now : Nat) :
    (∃ depth tm tm', ∀ rounds, depth ≤ rounds →
      exec (step script rounds) {} acts = .ok tm ∧ tm.update script rounds now = .ok tm') ∧
    ∀ rounds tm tm', exec (step script rounds) {} acts = .ok tm →
      tm.update script rounds now = .ok tm' → Legal tm'.trace → ∃ tr, Fires now tm tm' tr := by
  constructor
  · obtain ⟨depth, tm, hrun⟩ := run_stops hs hacts {}
    obtain ⟨depth', tm', hupdate⟩ := update_stops hs now tm
    refine ⟨max depth depth', tm, tm', ?_⟩
    intro rounds hrounds
    exact ⟨hrun rounds (le_of_max_le_left hrounds), hupdate rounds (le_of_max_le_right hrounds)⟩
  · intro rounds tm tm' hrun hupdate hlegal
    have hpre := (update_extends script rounds now List.prefix_rfl).of_ok hupdate
    have hidle : Idle tm := run_idle hs hacts hrun (hlegal.of_prefix hpre) ⟨inv_empty, isHeap_nil⟩
    exact (update_fires hs hidle hupdate hlegal).2

/-- Two timers; the callback of the first one starts a third that is due at once. -/
theorem update_fires_due_nested :
    ∃ tm tm' tr,
      exec (step (fun tr => if fired tr = [1] then [.start 9 0 3] else []) 9) {}
        [.call (.start 0 5 1), .call (.start 0 8 2)] = .ok tm ∧
      tm.update (fun tr => if fired tr = [1] then [.start 9 0 3] else []) 9 9 = .ok tm' ∧
      fired tr = [1, 2, 3] ∧ Fires 9 tm tm' tr := by
  have hs : Starter fun tr => if fired tr = [1] then [.start 9 0 3] else [] := by
    refine ⟨?_, 2, ?_⟩
    · intro tr c hc
      split at hc
      · obtain rfl := List.mem_singleton.mp hc
        trivial
      · cases hc
    · intro tr htr
      apply if_neg
      intro h
      simp [h] at htr
  have hacts : ∀ act ∈ [.call (.start 0 5 1), .call (.start 0 8 2)], OnlyStarts act := by
    intro act hact
    simp at hact
    rcases hact with rfl | rfl <;> trivial
  obtain ⟨tr, hfires⟩ := (update_fires_due hs hacts 9).2 9 _ _ rfl rfl
    ⟨by decide, by decide, by decide⟩
  obtain rfl : tr = [.update 9, .fired 1, .started 9 0 3, .popped 1, .fired 2, .popped 2, .fired 3,
      .popped 3] := List.append_cancel_left hfires.trace.symm
  exact ⟨_, _, _, rfl, rfl, rfl, hfires⟩

end MixServer.Net.Timer
