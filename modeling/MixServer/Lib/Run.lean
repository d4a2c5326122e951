import Mathlib.Data.List.Infix
import Mathlib.Tactic.Linarith

/-!
Runs of deterministic systems whose steps may fail.

A step is a function `σ → ε → Except χ σ`: an event either leads to the next
state or ends the run with a failure. Four kinds of rules are collected here.

* `Ensures r Q E` is the postcondition of one computation: `Q` of its result,
  `E` of its failure. `Ensures.bind` is the rule of sequencing. `bind_eq_ok` and
  `exec_cons_eq_ok` take apart what has succeeded.
* `exec_ensures` lifts a step postcondition to every run (the induction that
  every safety theorem shares), and `exec_simulates` a simulation of steps to a
  simulation of runs.
* `Every step P s es` says that `P` holds of each pair of a state and an event
  that the run from `s` meets. `good_iff_every` turns an exact condition on one
  step into an exact condition on a run: all states reached are good iff every
  step meets the condition.
* `Views view I r r'` says that a computation ends as a more abstract one does, and
  `exec_views` lifts it from steps to runs.
-/

namespace Lib

universe u

variable {σ ε χ : Type*} {α β : Type u}

/-! ### Postconditions of computations that may fail -/

/-- `Q` holds of the result of `r`, and `E` of its failure. -/
def Ensures (r : Except χ α) (Q : α → Prop) (E : χ → Prop) : Prop :=
  match r with
  | .ok a => Q a
  | .error x => E x

@[simp] theorem ensures_ok {a : α} {Q : α → Prop} {E : χ → Prop} :
    Ensures (.ok a) Q E ↔ Q a := Iff.rfl

@[simp] theorem ensures_error {x : χ} {Q : α → Prop} {E : χ → Prop} :
    Ensures (.error x) Q E ↔ E x := Iff.rfl

@[simp] theorem ok_bind (a : α) (f : α → Except χ β) : (.ok a >>= f) = f a := rfl

@[simp] theorem error_bind (x : χ) (f : α → Except χ β) : (.error x >>= f) = .error x := rfl

/-- A sequence that succeeds, taken apart. -/
theorem bind_eq_ok {r : Except χ α} {f : α → Except χ β} {b : β} :
    (r >>= f) = .ok b ↔ ∃ a, r = .ok a ∧ f a = .ok b := by
  constructor
  · intro h
    cases r with
    | ok a => exact ⟨a, rfl, h⟩
    | error x => cases h
  · rintro ⟨a, rfl, h⟩
    exact h

/-- Sequencing: the second computation starts from what the first ensures. -/
theorem Ensures.bind {r : Except χ α} {f : α → Except χ β} {Q : α → Prop} {R : β → Prop}
    {E : χ → Prop} (h : Ensures r Q E) (hf : ∀ a, Q a → Ensures (f a) R E) :
    Ensures (r >>= f) R E := by
  cases r with
  | ok a => exact hf a h
  | error x => exact h

/-- Consequence. -/
theorem Ensures.mono {r : Except χ α} {Q Q' : α → Prop} {E E' : χ → Prop}
    (h : Ensures r Q E) (hQ : ∀ a, Q a → Q' a) (hE : ∀ x, E x → E' x) : Ensures r Q' E' := by
  cases r with
  | ok a => exact hQ a h
  | error x => exact hE x h

/-- A postcondition, read at a known result. -/
theorem Ensures.of_ok {r : Except χ α} {Q : α → Prop} {E : χ → Prop} {a : α}
    (h : Ensures r Q E) (eq : r = .ok a) : Q a := by
  subst eq
  exact h

/-- A postcondition, read at a known failure. -/
theorem Ensures.of_error {r : Except χ α} {Q : α → Prop} {E : χ → Prop} {x : χ}
    (h : Ensures r Q E) (eq : r = .error x) : E x := by
  subst eq
  exact h

/-- Two postconditions hold together. -/
theorem Ensures.and {r : Except χ α} {Q Q' : α → Prop} {E E' : χ → Prop}
    (h : Ensures r Q E) (h' : Ensures r Q' E') :
    Ensures r (fun a => Q a ∧ Q' a) (fun x => E x ∧ E' x) := by
  cases r with
  | ok a => exact ⟨h, h'⟩
  | error x => exact ⟨h, h'⟩

/-! ### Runs -/

/-- Executes the events in order and stops at the first failure. -/
def exec (step : σ → ε → Except χ σ) : σ → List ε → Except χ σ
  | s, [] => .ok s
  | s, e :: es =>
      match step s e with
      | .ok s' => exec step s' es
      | .error x => .error x

section Runs

variable {step : σ → ε → Except χ σ}

@[simp] theorem exec_nil (s : σ) : exec step s [] = .ok s := rfl

theorem exec_cons_ok {s s' : σ} {e : ε} (h : step s e = .ok s') (es : List ε) :
    exec step s (e :: es) = exec step s' es := by
  simp [exec, h]

theorem exec_cons_error {s : σ} {e : ε} {x : χ} (h : step s e = .error x) (es : List ε) :
    exec step s (e :: es) = .error x := by
  simp [exec, h]

/-- A run that succeeds, taken apart at its first event. -/
theorem exec_cons_eq_ok {s s' : σ} {e : ε} {es : List ε} :
    exec step s (e :: es) = .ok s' ↔ ∃ s₁, step s e = .ok s₁ ∧ exec step s₁ es = .ok s' := by
  constructor
  · intro h
    cases hs : step s e with
    | ok s₁ => exact ⟨s₁, rfl, (exec_cons_ok hs es).symm.trans h⟩
    | error x =>
      rw [exec_cons_error hs] at h
      cases h
  · rintro ⟨s₁, hs, h⟩
    rw [exec_cons_ok hs, h]

theorem exec_cons (s : σ) (e : ε) (es : List ε) :
    exec step s (e :: es) = (step s e).bind fun s' => exec step s' es := by
  cases h : step s e with
  | ok s' => exact exec_cons_ok h es
  | error x => exact exec_cons_error h es

theorem exec_singleton (s : σ) (e : ε) : exec step s [e] = step s e := by
  cases h : step s e with
  | ok s' => rw [exec_cons_ok h, exec_nil]
  | error x => rw [exec_cons_error h]

/-- A run over `es ++ fs` is a run over `es` followed by a run over `fs`. -/
theorem exec_append (s : σ) (es fs : List ε) :
    exec step s (es ++ fs) = (exec step s es).bind fun s' => exec step s' fs := by
  induction es generalizing s with
  | nil => rfl
  | cons e es ih =>
    cases h : step s e with
    | ok s' => rw [List.cons_append, exec_cons_ok h, exec_cons_ok h, ih]
    | error x => rw [List.cons_append, exec_cons_error h, exec_cons_error h]; rfl

/-- A run that succeeds up to its last event, and that event. -/
theorem exec_snoc_ok {s s' : σ} {es : List ε} {e : ε} (hrun : exec step s (es ++ [e]) = .ok s') :
    ∃ s₁, exec step s es = .ok s₁ ∧ step s₁ e = .ok s' := by
  rw [exec_append] at hrun
  obtain ⟨s₁, hes, hlast⟩ := bind_eq_ok.mp hrun
  exact ⟨s₁, hes, (exec_singleton s₁ e).symm.trans hlast⟩

/-- A beginning of a run that succeeds. -/
theorem exec_of_prefix {s s' : σ} {es pre : List ε} (hrun : exec step s es = .ok s')
    (hpre : pre <+: es) : ∃ s₁, exec step s pre = .ok s₁ := by
  obtain ⟨rest, rfl⟩ := hpre
  rw [exec_append] at hrun
  obtain ⟨s₁, hpre, -⟩ := bind_eq_ok.mp hrun
  exact ⟨s₁, hpre⟩

/-- A step rule is a run rule: what each step ensures from a good state, every
run ensures. -/
theorem exec_ensures {I : σ → Prop} {E : χ → Prop}
    (hstep : ∀ s e, I s → Ensures (step s e) I E) {s : σ} (hs : I s) (es : List ε) :
    Ensures (exec step s es) I E := by
  induction es generalizing s with
  | nil => exact hs
  | cons e es ih =>
    have h := hstep s e hs
    cases hr : step s e with
    | ok s' => rw [exec_cons_ok hr]; exact ih (h.of_ok hr)
    | error x => rw [exec_cons_error hr]; exact h.of_error hr

/-- The simulation rule: if `step` matches each step that `step'` takes, and keeps
`R` with it, then it matches each run of `step'`. -/
theorem exec_simulates {τ χ' : Type*} {step' : τ → ε → Except χ' τ} {R : σ → τ → Prop}
    (hstep : ∀ s t e t', R s t → step' t e = .ok t' →
      Ensures (step s e) (fun s' => R s' t') fun _ => False)
    {s : σ} {t t' : τ} (h : R s t) {es : List ε} (hrun : exec step' t es = .ok t') :
    ∃ s', exec step s es = .ok s' ∧ R s' t' := by
  induction es generalizing s t with
  | nil =>
    cases hrun
    exact ⟨s, rfl, h⟩
  | cons e es ih =>
    obtain ⟨t₁, ht, hrest⟩ := exec_cons_eq_ok.mp hrun
    have hmatch := hstep s t e t₁ h ht
    cases hs : step s e with
    | error x => exact (hmatch.of_error hs).elim
    | ok s₁ =>
      rw [exec_cons_ok hs]
      exact ih (hmatch.of_ok hs) hrest

/-! ### Conditions on every step of a run -/

/-- `P` holds of each state and event the run meets. -/
def Every (step : σ → ε → Except χ σ) (P : σ → ε → Prop) : σ → List ε → Prop
  | _, [] => True
  | s, e :: es => P s e ∧ ∀ s', step s e = .ok s' → Every step P s' es

@[simp] theorem every_nil (P : σ → ε → Prop) (s : σ) : Every step P s [] := trivial

theorem every_cons_ok {P : σ → ε → Prop} {s s' : σ} {e : ε} (h : step s e = .ok s')
    (es : List ε) : Every step P s (e :: es) ↔ P s e ∧ Every step P s' es := by
  constructor
  · rintro ⟨he, hrest⟩
    exact ⟨he, hrest s' h⟩
  · rintro ⟨he, hrest⟩
    refine ⟨he, ?_⟩
    intro s'' h''
    rw [h] at h''
    cases h''
    exact hrest

theorem every_cons_error {P : σ → ε → Prop} {s : σ} {e : ε} {x : χ} (h : step s e = .error x)
    (es : List ε) : Every step P s (e :: es) ↔ P s e := by
  constructor
  · intro hP
    exact hP.1
  · intro he
    refine ⟨he, ?_⟩
    intro s' h'
    rw [h] at h'
    cases h'

instance Every.decidable {P : σ → ε → Prop} [∀ s e, Decidable (P s e)] :
    ∀ s es, Decidable (Every step P s es)
  | _, [] => .isTrue trivial
  | s, e :: es =>
      match h : step s e with
      | .ok s' =>
          have : Decidable (Every step P s' es) := Every.decidable s' es
          decidable_of_iff _ (every_cons_ok h es).symm
      | .error _ => decidable_of_iff _ (every_cons_error h es).symm

theorem every_append {P : σ → ε → Prop} {s s' : σ} {es : List ε} (hrun : exec step s es = .ok s')
    (fs : List ε) : Every step P s (es ++ fs) ↔ Every step P s es ∧ Every step P s' fs := by
  induction es generalizing s with
  | nil =>
    cases hrun
    simp
  | cons e es ih =>
    obtain ⟨s₁, hr, hrest⟩ := exec_cons_eq_ok.mp hrun
    rw [List.cons_append, every_cons_ok hr, every_cons_ok hr, ih hrest, and_assoc]

theorem every_of_forall {P : σ → ε → Prop} (h : ∀ s e, P s e) {s : σ} {es : List ε} :
    Every step P s es := by
  induction es generalizing s with
  | nil => trivial
  | cons e es ih => exact ⟨h s e, fun _ _ => ih⟩

/-- `P` holds at every step if it holds after each beginning of the run. -/
theorem every_of_split {P : σ → ε → Prop} {s : σ} {es : List ε}
    (h : ∀ pre e post, es = pre ++ e :: post → ∀ s', exec step s pre = .ok s' → P s' e) :
    Every step P s es := by
  induction es generalizing s with
  | nil => trivial
  | cons e es ih =>
    refine ⟨h [] e es rfl s rfl, ?_⟩
    intro s' hs'
    apply ih
    intro pre e' post heq s'' hs''
    apply h (e :: pre) e' post
    · rw [heq, List.cons_append]
    · rw [exec_cons_ok hs', hs'']

/-- A run from an invariant whose steps all meet `C` meets the step
postcondition under `C`. -/
theorem exec_ensures_of_every {C : σ → ε → Prop} {I : σ → Prop} {E : χ → Prop}
    (hstep : ∀ s e, I s → C s e → Ensures (step s e) I E) {s : σ} (hs : I s) {es : List ε}
    (hC : Every step C s es) : Ensures (exec step s es) I E := by
  induction es generalizing s with
  | nil => exact hs
  | cons e es ih =>
    cases hr : step s e with
    | ok s' =>
      obtain ⟨he, hrest⟩ := (every_cons_ok hr es).mp hC
      rw [exec_cons_ok hr]
      exact ih ((hstep s e hs he).of_ok hr) hrest
    | error x =>
      rw [exec_cons_error hr]
      exact (hstep s e hs ((every_cons_error hr es).mp hC)).of_error hr

/-- What follows from an invariant at a step that meets `C` holds at every step of a run
that meets `C`. -/
theorem Every.imp {C Q : σ → ε → Prop} {I : σ → Prop}
    (hstep : ∀ s e, I s → C s e → Ensures (step s e) I fun _ => True)
    (hQ : ∀ s e, I s → C s e → Q s e) {s : σ} (hs : I s) {es : List ε}
    (hC : Every step C s es) : Every step Q s es := by
  induction es generalizing s with
  | nil => trivial
  | cons e es ih =>
    obtain ⟨he, hrest⟩ := hC
    refine ⟨hQ s e hs he, ?_⟩
    intro s' hs'
    exact ih ((hstep s e hs he).of_ok hs') (hrest s' hs')

theorem every_and {P Q : σ → ε → Prop} {s : σ} {es : List ε} :
    Every step (fun s e => P s e ∧ Q s e) s es ↔ Every step P s es ∧ Every step Q s es := by
  induction es generalizing s with
  | nil => simp
  | cons e es ih =>
    cases hr : step s e with
    | ok s' =>
      rw [every_cons_ok hr, every_cons_ok hr, every_cons_ok hr, ih]
      exact and_and_and_comm
    | error x => rw [every_cons_error hr, every_cons_error hr, every_cons_error hr]

/-- Two conditions that agree on the invariant agree on a run. -/
theorem every_congr {P Q : σ → ε → Prop} {I : σ → Prop}
    (hstep : ∀ s e, I s → Ensures (step s e) I fun _ => True)
    (h : ∀ s e, I s → (P s e ↔ Q s e)) {s : σ} (hs : I s) {es : List ε} :
    Every step P s es ↔ Every step Q s es :=
  ⟨fun hP => hP.imp (fun s e hs _ => hstep s e hs) (fun s e hs => (h s e hs).mp) hs,
    fun hQ => hQ.imp (fun s e hs _ => hstep s e hs) (fun s e hs => (h s e hs).mpr) hs⟩

/-- Every state that some beginning of the run reaches satisfies `G`. -/
def AllReached (step : σ → ε → Except χ σ) (G : σ → Prop) (s : σ) (es : List ε) : Prop :=
  ∀ pre, pre <+: es → ∀ s', exec step s pre = .ok s' → G s'

theorem AllReached.mono {G G' : σ → Prop} {s : σ} {es : List ε} (h : AllReached step G s es)
    (hG : ∀ s, G s → G' s) : AllReached step G' s es :=
  fun pre hpre s' hs' => hG s' (h pre hpre s' hs')

/-- A beginning of the run meets the condition as well. -/
theorem Every.of_prefix {P : σ → ε → Prop} {s : σ} {es pre : List ε} (h : Every step P s es)
    (hpre : pre <+: es) : Every step P s pre := by
  induction pre generalizing s es with
  | nil => trivial
  | cons e pre ih =>
    obtain ⟨rest, rfl⟩ := hpre
    exact ⟨h.1, fun s' hs' => ih (h.2 s' hs') (List.prefix_append pre rest)⟩

/-- A step rule under a condition is a rule for every state that a run meeting
the condition reaches. -/
theorem allReached_of_every {C : σ → ε → Prop} {I : σ → Prop}
    (hstep : ∀ s e, I s → C s e → Ensures (step s e) I fun _ => True) {s : σ} (hs : I s)
    {es : List ε} (hC : Every step C s es) : AllReached step I s es := by
  intro pre hpre s' hs'
  exact (exec_ensures_of_every hstep hs (hC.of_prefix hpre)).of_ok hs'

theorem allReached_nil {G : σ → Prop} {s : σ} : AllReached step G s [] ↔ G s := by
  constructor
  · intro h
    exact h [] List.nil_prefix s rfl
  · intro h pre hpre s' hs'
    obtain rfl := List.prefix_nil.mp hpre
    cases hs'
    exact h

theorem allReached_cons_ok {G : σ → Prop} {s s' : σ} {e : ε} (h : step s e = .ok s')
    (es : List ε) : AllReached step G s (e :: es) ↔ G s ∧ AllReached step G s' es := by
  constructor
  · intro hG
    refine ⟨hG [] List.nil_prefix s rfl, ?_⟩
    intro pre hpre s'' hs''
    refine hG (e :: pre) (List.cons_prefix_cons.mpr ⟨rfl, hpre⟩) s'' ?_
    rw [exec_cons_ok h]
    exact hs''
  · rintro ⟨hs, hrest⟩ pre hpre s'' hs''
    cases pre with
    | nil => cases hs''; exact hs
    | cons e' pre =>
      obtain ⟨rfl, hrestPre⟩ := List.cons_prefix_cons.mp hpre
      rw [exec_cons_ok h] at hs''
      exact hrest pre hrestPre s'' hs''

theorem allReached_cons_error {G : σ → Prop} {s : σ} {e : ε} {x : χ} (h : step s e = .error x)
    (es : List ε) : AllReached step G s (e :: es) ↔ G s := by
  constructor
  · intro hG
    exact hG [] List.nil_prefix s rfl
  · rintro hs pre hpre s'' hs''
    cases pre with
    | nil => cases hs''; exact hs
    | cons e' pre =>
      obtain ⟨rfl, -⟩ := List.cons_prefix_cons.mp hpre
      rw [exec_cons_error h] at hs''
      cases hs''

/-- **The exactness rule.** If, from a good state of the invariant, a step leads
to a good state exactly under `C`, then a run stays good exactly when each of
its steps meets `C`. `L` restricts the events (a calling contract). -/
theorem good_iff_every {G I : σ → Prop} {C L : σ → ε → Prop}
    (hI : ∀ s e, I s → L s e → Ensures (step s e) I (fun _ => True))
    (hexact : ∀ s e, I s → L s e → G s →
      (Ensures (step s e) G (fun _ => True) ↔ C s e))
    {s : σ} (hs : I s) (hG : G s) {es : List ε} (hL : Every step L s es) :
    AllReached step G s es ↔ Every step C s es := by
  induction es generalizing s with
  | nil => simp [allReached_nil, hG]
  | cons e es ih =>
    cases hr : step s e with
    | error x =>
      have he := hexact s e hs ((every_cons_error hr es).mp hL) hG
      rw [hr, ensures_error, true_iff] at he
      rw [allReached_cons_error hr, every_cons_error hr]
      exact ⟨fun _ => he, fun _ => hG⟩
    | ok s' =>
      obtain ⟨hLe, hLrest⟩ := (every_cons_ok hr es).mp hL
      have he := hexact s e hs hLe hG
      rw [hr, ensures_ok] at he
      rw [allReached_cons_ok hr, every_cons_ok hr, ← he]
      constructor
      · rintro ⟨-, hrest⟩
        have hs' : G s' := hrest [] List.nil_prefix s' rfl
        exact ⟨hs', (ih ((hI s e hs hLe).of_ok hr) hs' hLrest).mp hrest⟩
      · rintro ⟨hs', hrest⟩
        exact ⟨hG, (ih ((hI s e hs hLe).of_ok hr) hs' hLrest).mpr hrest⟩

/-- The exactness rule for failures: if a step from the invariant fails badly
exactly when it breaks `C`, then a run fails badly exactly when one of its steps
breaks `C`. -/
theorem exec_ensures_iff_every {I : σ → Prop} {E : χ → Prop} {C : σ → ε → Prop}
    (hstep : ∀ s e, I s → C s e → Ensures (step s e) I E)
    (hbad : ∀ s e, I s → ¬ C s e → Ensures (step s e) (fun _ => False) (fun x => ¬ E x))
    {s : σ} (hs : I s) {es : List ε} :
    Ensures (exec step s es) (fun _ => True) E ↔ Every step C s es := by
  constructor
  · intro h
    induction es generalizing s with
    | nil => trivial
    | cons e es ih =>
      have hC : C s e := by
        by_contra hn
        have hb := hbad s e hs hn
        cases hr : step s e with
        | ok s' => exact hb.of_ok hr
        | error x =>
          rw [exec_cons_error hr] at h
          exact hb.of_error hr h
      refine ⟨hC, fun s' hr => ih ((hstep s e hs hC).of_ok hr) ?_⟩
      rwa [exec_cons_ok hr] at h
  · intro h
    exact (exec_ensures_of_every hstep hs h).mono (fun _ _ => trivial) (fun _ => id)

/-- What all beginnings of a run ensure, the first step ensures. -/
theorem ensures_first {G : List ε → σ → Prop} {E : χ → Prop} {s : σ} {e : ε} {es : List ε}
    (h : ∀ pre, pre <+: e :: es → Ensures (exec step s pre) (G pre) E) :
    Ensures (step s e) (G [e]) E := by
  have hfirst := h [e] (by simp)
  rwa [exec_singleton] at hfirst

/-- The exactness rule for every beginning of a run, over properties that may
depend on the events so far: if a step keeps the invariant `I` under `C` and
breaks `G` otherwise, then all beginnings of a run are good exactly when each of
its steps meets `C`. `L` restricts the events. -/
theorem prefixes_iff_every_of_legal {G I : List ε → σ → Prop} {E : χ → Prop} {C L : σ → ε → Prop}
    (hstep : ∀ past s e, I past s → L s e → C s e → Ensures (step s e) (I (past ++ [e])) E)
    (hbad : ∀ past s e, I past s → L s e → ¬ C s e →
      ¬ Ensures (step s e) (G (past ++ [e])) E)
    (hG : ∀ past s, I past s → G past s) (past : List ε) {s : σ} (hs : I past s) {es : List ε}
    (hL : Every step L s es) :
    (∀ pre, pre <+: es → Ensures (exec step s pre) (G (past ++ pre)) E) ↔ Every step C s es := by
  constructor
  · intro h
    induction es generalizing past s with
    | nil => trivial
    | cons e es ih =>
      have hC : C s e := by
        by_contra hn
        exact hbad past s e hs hL.1 hn (ensures_first h)
      refine ⟨hC, fun s' hr =>
        ih (past ++ [e]) ((hstep past s e hs hL.1 hC).of_ok hr) (hL.2 s' hr) ?_⟩
      intro pre hpre
      have hrest := h (e :: pre) (List.cons_prefix_cons.mpr ⟨rfl, hpre⟩)
      rwa [exec_cons_ok hr, List.append_cons] at hrest
  · intro h pre hpre
    induction pre generalizing past s es with
    | nil =>
      rw [List.append_nil]
      exact hG past s hs
    | cons e pre ih =>
      obtain ⟨es', rfl⟩ := hpre
      have hnext := hstep past s e hs hL.1 h.1
      rw [List.append_cons]
      cases hr : step s e with
      | ok s' =>
        rw [exec_cons_ok hr]
        exact ih (past ++ [e]) (hnext.of_ok hr) (hL.2 s' hr) (h.2 s' hr)
          (List.prefix_append pre es')
      | error x =>
        rw [exec_cons_error hr]
        exact hnext.of_error hr

/-- The same for events without a restriction. -/
theorem prefixes_iff_every {G I : List ε → σ → Prop} {E : χ → Prop} {C : σ → ε → Prop}
    (hstep : ∀ past s e, I past s → C s e → Ensures (step s e) (I (past ++ [e])) E)
    (hbad : ∀ past s e, I past s → ¬ C s e → ¬ Ensures (step s e) (G (past ++ [e])) E)
    (hG : ∀ past s, I past s → G past s) (past : List ε) {s : σ} (hs : I past s) {es : List ε} :
    (∀ pre, pre <+: es → Ensures (exec step s pre) (G (past ++ pre)) E) ↔ Every step C s es :=
  prefixes_iff_every_of_legal (L := fun _ _ => True) (fun past s e h _ => hstep past s e h)
    (fun past s e h _ => hbad past s e h) hG past hs (every_of_forall fun _ _ => trivial)

end Runs

/-! ### Two levels of one design -/

/-- `r` ends as `r'` does: with the same failure, or in a state of the invariant `I` whose
`view` is the result of `r'`. -/
structure Views {σ' : Type*} (view : σ → σ') (I : σ → Prop) (r : Except χ σ) (r' : Except χ σ') :
    Prop where
  map_eq : r.map view = r'
  invariant : Ensures r I fun _ => True

section Views

variable {ρ ρ' : Type u} {view : ρ → ρ'} {I : ρ → Prop}

theorem views_ok {s : ρ} (h : I s) : Views view I (.ok s : Except χ ρ) (.ok (view s)) := ⟨rfl, h⟩

theorem views_error (x : χ) : Views view I (.error x) (.error x) := ⟨rfl, trivial⟩

theorem Views.bind {r : Except χ ρ} {r' : Except χ ρ'} {f : ρ → Except χ ρ}
    {f' : ρ' → Except χ ρ'} (h : Views view I r r')
    (hf : ∀ s, I s → Views view I (f s) (f' (view s))) :
    Views view I (r >>= f) (r' >>= f') := by
  obtain ⟨rfl, hinv⟩ := h
  cases r with
  | ok s => exact hf s hinv
  | error x => exact views_error x

/-- What the abstract result ensures holds of the view of the concrete one. -/
theorem Views.ensures {r : Except χ ρ} {r' : Except χ ρ'} {Q : ρ' → Prop} {E : χ → Prop}
    (h : Views view I r r') (hr' : Ensures r' Q E) :
    Ensures r (fun s => Q (view s) ∧ I s) E := by
  obtain ⟨rfl, hinv⟩ := h
  cases r with
  | ok s => exact ⟨hr', hinv⟩
  | error x => exact hr'

/-- What the concrete result ensures of its view holds of the abstract one. -/
theorem Views.ensures_of_view {r : Except χ ρ} {r' : Except χ ρ'} {Q : ρ' → Prop} {E : χ → Prop}
    (h : Views view I r r') (hr : Ensures r (fun s => Q (view s)) E) : Ensures r' Q E := by
  obtain ⟨rfl, -⟩ := h
  cases r with
  | ok s => exact hr
  | error x => exact hr

/-- A run whose events meet `L` is viewed as the run over the events as `erase` leaves them, if
each of its steps is. -/
theorem exec_views {ε' : Type*} {conc : ρ → ε → Except χ ρ} {abst : ρ' → ε' → Except χ ρ'}
    {erase : ε → ε'} {L : ρ → ε → Prop}
    (hstep : ∀ s e, I s → L s e → Views view I (conc s e) (abst (view s) (erase e)))
    {s : ρ} (hs : I s) {es : List ε} (hL : Every conc L s es) :
    Views view I (exec conc s es) (exec abst (view s) (es.map erase)) := by
  induction es generalizing s with
  | nil => exact views_ok hs
  | cons e es ih =>
    obtain ⟨heq, hinv⟩ := hstep s e hs hL.1
    cases hr : conc s e with
    | ok s₁ =>
      rw [hr] at heq hinv
      rw [exec_cons_ok hr, List.map_cons, exec_cons_ok heq.symm]
      exact ih hinv (hL.2 s₁ hr)
    | error x =>
      rw [hr] at heq
      rw [exec_cons_error hr, List.map_cons, exec_cons_error heq.symm]
      exact views_error x

end Views

end Lib
