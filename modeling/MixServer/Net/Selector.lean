import Mathlib.Data.Set.Card
import MixServer.Lib.Run
import MixServer.Net.Poll

/-!
What the back ends of `EventLoop` have in common.

`Select`, `Poll`, `Epoll` and `Kqueue` offer the same three calls (`Selector`).
What they are for is a table of the registered descriptors, each with the mask
last given for it (`Registered`). A back end refines that table if it keeps a
relation to it at every call that may be made (`Refines`), and then over every
sequence of calls (`Refines.exec_ok`).
-/

namespace MixServer.Net

open Lib
open Function (update)

/-- A call of `EventLoop` to its selector. -/
inductive SelectorCall where
  | addHandle (fd : Int) (events : Mask)
  | updateEvent (fd : Int) (events : Mask)
  | rmHandle (fd : Int)
deriving DecidableEq, Repr

/-- The three calls of a back end with states in `σ`. -/
structure Selector (σ χ : Type) where
  addHandle : σ → Int → Mask → Except χ σ
  updateEvent : σ → Int → Mask → Except χ σ
  rmHandle : σ → Int → Except χ σ

namespace Selector

variable {σ χ : Type}

def step (sel : Selector σ χ) (s : σ) : SelectorCall → Except χ σ
  | .addHandle fd events => sel.addHandle s fd events
  | .updateEvent fd events => sel.updateEvent s fd events
  | .rmHandle fd => sel.rmHandle s fd

end Selector

/-- The registered descriptors, each with the mask last given for it. -/
abbrev Registered := Int → Option Mask

namespace Registered

/-- A descriptor is not negative, and is added once before it is updated or
removed; a call that breaks this must not be made. -/
def step (r : Registered) : SelectorCall → Except Abort Registered
  | .addHandle fd events =>
      if 0 ≤ fd ∧ r fd = none then .ok (update r fd (some events)) else .error .addHandle
  | .updateEvent fd events =>
      if (r fd).isSome then .ok (update r fd (some events)) else .error .updateEvent
  | .rmHandle fd => if (r fd).isSome then .ok (update r fd none) else .error .rmHandle

def empty : Registered := fun _ => none

/-- Only descriptors that are not negative are registered. -/
def Nonneg (r : Registered) : Prop := ∀ fd, (r fd).isSome → 0 ≤ fd

variable {r r' : Registered}

/-- What a call that may be made does. -/
theorem step_cases {call : SelectorCall} (hok : r.step call = .ok r') :
    (∃ fd events, call = .addHandle fd events ∧ 0 ≤ fd ∧ r fd = none ∧
      r' = update r fd (some events)) ∨
    (∃ fd events, call = .updateEvent fd events ∧ (r fd).isSome ∧
      r' = update r fd (some events)) ∨
    ∃ fd, call = .rmHandle fd ∧ (r fd).isSome ∧ r' = update r fd none := by
  cases call with
  | addHandle fd events =>
    simp only [Registered.step] at hok
    split at hok
    · rename_i hfresh
      cases hok
      exact .inl ⟨fd, events, rfl, hfresh.1, hfresh.2, rfl⟩
    · cases hok
  | updateEvent fd events =>
    simp only [Registered.step] at hok
    split at hok
    · rename_i hknown
      cases hok
      exact .inr (.inl ⟨fd, events, rfl, hknown, rfl⟩)
    · cases hok
  | rmHandle fd =>
    simp only [Registered.step] at hok
    split at hok
    · rename_i hknown
      cases hok
      exact .inr (.inr ⟨fd, rfl, hknown, rfl⟩)
    · cases hok

theorem isSome_update {fd : Int} {m : Option Mask} (fd' : Int) :
    (update r fd m fd').isSome = if fd' = fd then m.isSome else (r fd').isSome := by
  by_cases hfd : fd' = fd
  · simp [hfd]
  · simp [hfd]

/-- What a back end derives from each mask follows the table. -/
theorem map_update {β : Type} {f : Int → Option β} {g : Mask → β} (h : ∀ fd, f fd = (r fd).map g)
    (fd : Int) (m : Option Mask) (fd' : Int) :
    update f fd (m.map g) fd' = (update r fd m fd').map g := by
  rw [Function.update_apply, Function.update_apply]
  split
  · rfl
  · exact h fd'

theorem Nonneg.update (h : r.Nonneg) {fd : Int} {m : Option Mask} (hfd : m.isSome → 0 ≤ fd) :
    Nonneg (update r fd m) := by
  intro fd' hfd'
  rw [isSome_update] at hfd'
  split at hfd'
  · rename_i heq
    exact heq ▸ hfd hfd'
  · exact h fd' hfd'

theorem known_update {fd : Int} {m : Option Mask} :
    {fd' | (update r fd m fd').isSome} =
      if m.isSome then insert fd {fd' | (r fd').isSome} else {fd' | (r fd').isSome} \ {fd} := by
  ext fd'
  change (update r fd m fd').isSome = true ↔ _
  rw [isSome_update]
  cases m with
  | none =>
    simp [and_comm]
  | some m =>
    by_cases hfd : fd' = fd
    · simp [hfd]
    · simp [hfd]

/-- There are `n` registered descriptors. -/
structure Counts (r : Registered) (n : Int) : Prop where
  finite : {fd | (r fd).isSome}.Finite
  ncard : ({fd | (r fd).isSome}.ncard : Int) = n

theorem counts_empty : Counts empty 0 := by
  have hnone : {fd | (empty fd).isSome} = ∅ := by
    ext fd
    exact iff_of_false (by intro h; cases h) (by simp)
  exact ⟨hnone ▸ Set.finite_empty, by rw [hnone, Set.ncard_empty]; rfl⟩

theorem Counts.add {n : Int} (h : r.Counts n) {fd : Int} (hnone : r fd = none) (events : Mask) :
    Counts (Function.update r fd (some events)) (n + 1) := by
  have hknown : {fd' | (Function.update r fd (some events) fd').isSome} =
      insert fd {fd' | (r fd').isSome} := known_update
  have hfresh : fd ∉ {fd' | (r fd').isSome} := by
    change ¬ (r fd).isSome = true
    rw [hnone]
    simp
  constructor
  · rw [hknown]
    exact h.finite.insert fd
  · rw [hknown, Set.ncard_insert_of_notMem hfresh h.finite, Nat.cast_succ, h.ncard]

theorem Counts.updateEvent {n : Int} (h : r.Counts n) {fd : Int} (hfd : (r fd).isSome)
    (events : Mask) : Counts (Function.update r fd (some events)) n := by
  have hknown : {fd' | (Function.update r fd (some events) fd').isSome} =
      insert fd {fd' | (r fd').isSome} := known_update
  have hmem : fd ∈ {fd' | (r fd').isSome} := hfd
  rw [Set.insert_eq_of_mem hmem] at hknown
  exact ⟨hknown ▸ h.finite, hknown ▸ h.ncard⟩

theorem Counts.remove {n : Int} (h : r.Counts n) {fd : Int} (hfd : (r fd).isSome) :
    Counts (Function.update r fd none) (n - 1) := by
  have hknown : {fd' | (Function.update r fd none fd').isSome} = {fd' | (r fd').isSome} \ {fd} :=
    known_update
  have hmem : fd ∈ {fd' | (r fd').isSome} := hfd
  constructor
  · rw [hknown]
    exact h.finite.sdiff
  · have hcard := Set.ncard_sdiff_singleton_add_one hmem h.finite
    rw [hknown, ← h.ncard, ← hcard]
    simp

end Registered

/-- Each call that may be made succeeds, and keeps the back end's state in the
relation `R` to the table. -/
structure Selector.Refines {σ χ : Type} (sel : Selector σ χ) (R : σ → Registered → Prop) :
    Prop where
  addHandle : ∀ {s r fd events}, R s r → 0 ≤ fd → r fd = none →
    ∃ s', sel.addHandle s fd events = .ok s' ∧ R s' (update r fd (some events))
  updateEvent : ∀ {s r fd events}, R s r → (r fd).isSome →
    ∃ s', sel.updateEvent s fd events = .ok s' ∧ R s' (update r fd (some events))
  rmHandle : ∀ {s r fd}, R s r → (r fd).isSome →
    ∃ s', sel.rmHandle s fd = .ok s' ∧ R s' (update r fd none)

namespace Selector.Refines

variable {σ χ : Type} {sel : Selector σ χ} {R : σ → Registered → Prop} {s : σ}
  {r r' : Registered}

theorem step_ok (h : sel.Refines R) (hR : R s r) {call : SelectorCall}
    (hok : r.step call = .ok r') : ∃ s', sel.step s call = .ok s' ∧ R s' r' := by
  rcases Registered.step_cases hok with ⟨fd, events, rfl, hfd, hnone, rfl⟩ |
    ⟨fd, events, rfl, hknown, rfl⟩ | ⟨fd, rfl, hknown, rfl⟩
  · exact h.addHandle hR hfd hnone
  · exact h.updateEvent hR hknown
  · exact h.rmHandle hR hknown

/-- Each sequence of calls that may be made succeeds, and ends in the relation. -/
theorem exec_ok (h : sel.Refines R) (hR : R s r) {calls : List SelectorCall}
    (hrun : exec Registered.step r calls = .ok r') :
    ∃ s', exec sel.step s calls = .ok s' ∧ R s' r' := by
  refine exec_simulates (fun s r call r' hR hok => ?_) hR hrun
  obtain ⟨s', hs', hR'⟩ := h.step_ok hR hok
  rw [hs']
  exact hR'

end Selector.Refines

end MixServer.Net
