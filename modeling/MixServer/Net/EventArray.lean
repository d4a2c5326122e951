import Mathlib.Data.List.Infix
import Mathlib.Order.Bounds.Basic
import MixServer.Net.Selector

/-!
The vector that `Epoll` and `Kqueue` hand to the kernel to be filled with events.

Both start with ten elements and resize the vector when the number of registered
descriptors passes its capacity; how far the capacity grows is up to the
library. Both let the kernel write one event more than there are descriptors.
What both do to the number and to the vector is `Slots.step`, and when the vector
is large enough is said here for any sequence of calls (`fits_iff`,
`fits_always_iff`).
-/

namespace MixServer.Net

open Lib

/-- A growth policy: the capacity that a vector of some size and capacity gets when it
is resized to `n` elements that do not fit. -/
structure Allocator where
  grow : Nat → Nat → Nat → Nat
  le_grow : ∀ size capacity n, n ≤ grow size capacity n

/-- At least twice the size. -/
def Allocator.libstdcxx : Allocator where
  grow size _ n := max (2 * size) n
  le_grow size _ n := Nat.le_max_right (2 * size) n

structure EventArray where
  size : Nat
  capacity : Nat
  size_le : size ≤ capacity
deriving DecidableEq, Repr

namespace EventArray

def empty : EventArray := ⟨0, 0, Nat.le_refl 0⟩

/-- `std::vector::resize`. -/
def resize (alloc : Allocator) (v : EventArray) (n : Nat) : EventArray :=
  if h : n ≤ v.capacity then
    ⟨n, v.capacity, h⟩
  else
    ⟨n, alloc.grow v.size v.capacity n, alloc.le_grow v.size v.capacity n⟩

/-- The constructors' `resize(10)`. -/
def init (alloc : Allocator) : EventArray := empty.resize alloc 10

/-- The end of `add_handle`: the vector is resized to `n_events` elements if there
is no capacity for as many. -/
def reserve (alloc : Allocator) (v : EventArray) (nEvents : Int) : EventArray :=
  if v.capacity < nEvents then v.resize alloc nEvents.toNat else v

variable {alloc : Allocator} {v : EventArray}

@[simp] theorem size_resize (n : Nat) : (v.resize alloc n).size = n := by
  rw [resize]
  split <;> rfl

end EventArray

/-- `n_events` and the vector, in `Epoll` and in `Kqueue`. -/
structure Slots where
  nEvents : Int
  events : EventArray
deriving DecidableEq, Repr

namespace Slots

def step (alloc : Allocator) (s : Slots) : SelectorCall → Slots
  | .addHandle _ _ => ⟨s.nEvents + 1, s.events.reserve alloc (s.nEvents + 1)⟩
  | .updateEvent _ _ => s
  | .rmHandle _ => ⟨s.nEvents - 1, s.events⟩

/-- Both after a sequence of calls. -/
def after (alloc : Allocator) (calls : List SelectorCall) : Slots :=
  calls.foldl (step alloc) ⟨0, .init alloc⟩

/-- The wait call may write `n_events+1` events, and the vector has as many elements. -/
def Fits (s : Slots) : Prop := s.nEvents + 1 ≤ s.events.size

instance (s : Slots) : Decidable s.Fits := inferInstanceAs (Decidable (_ ≤ _))

/-- Somewhere in the sequence the vector was resized to `n` elements, because an
`add_handle` had brought the number of descriptors to `n`, above the capacity. -/
def Grown (alloc : Allocator) (calls : List SelectorCall) (n : Int) : Prop :=
  ∃ past fd events, past ++ [.addHandle fd events] <+: calls ∧
    (after alloc past).events.capacity < n ∧ n = (after alloc past).nEvents + 1

/-- How many events one wait call writes, when `ready` filters or descriptors have one. -/
def written (s : Slots) (ready : Nat) : Int := min ready (s.nEvents + 1)

/-- Whatever is ready, a vector that is large enough is not written past its end. -/
theorem Fits.written_le {s : Slots} (h : s.Fits) (ready : Nat) : s.written ready ≤ s.events.size :=
  (min_le_right _ _).trans h

variable {alloc : Allocator} {calls : List SelectorCall}

theorem after_append (call : SelectorCall) :
    after alloc (calls ++ [call]) = (after alloc calls).step alloc call := by
  rw [after, List.foldl_append]
  rfl

theorem grown_append {call : SelectorCall} {n : Int} :
    Grown alloc (calls ++ [call]) n ↔ Grown alloc calls n ∨
      (∃ fd events, call = .addHandle fd events) ∧
        (after alloc calls).events.capacity < n ∧ n = (after alloc calls).nEvents + 1 := by
  constructor
  · rintro ⟨past, fd, events, hpre, hgrown⟩
    rcases List.prefix_concat_iff.mp hpre with heq | hpre
    · obtain ⟨rfl, hcall⟩ := List.append_inj' heq rfl
      obtain ⟨rfl, -⟩ := List.cons.inj hcall
      exact .inr ⟨⟨fd, events, rfl⟩, hgrown⟩
    · exact .inl ⟨past, fd, events, hpre, hgrown⟩
  · rintro (⟨past, fd, events, hpre, hgrown⟩ | ⟨⟨fd, events, rfl⟩, hgrown⟩)
    · exact ⟨past, fd, events, hpre.trans (List.prefix_append _ _), hgrown⟩
    · exact ⟨calls, fd, events, List.prefix_rfl, hgrown⟩

theorem grown_nil {n : Int} : ¬ Grown alloc [] n := by
  rintro ⟨past, fd, events, hpre, -⟩
  have hnil := List.prefix_nil.mp hpre
  simp at hnil

/-- Without a resize the size stays the greatest number so far. -/
theorem isGreatest_of_same {call : SelectorCall}
    (h : IsGreatest (insert 10 {n | Grown alloc calls n}) ((after alloc calls).events.size : Int))
    (hsame : ∀ n, Grown alloc (calls ++ [call]) n ↔ Grown alloc calls n)
    (hevents : (after alloc (calls ++ [call])).events = (after alloc calls).events) :
    IsGreatest (insert 10 {n | Grown alloc (calls ++ [call]) n})
      ((after alloc (calls ++ [call])).events.size : Int) := by
  rw [hevents]
  simpa only [hsame] using h

/-- A resize is to a number above all before it. -/
theorem isGreatest_of_grown {fd : Int} {events : Mask}
    (h : IsGreatest (insert 10 {n | Grown alloc calls n}) ((after alloc calls).events.size : Int))
    (hgrows : (after alloc calls).events.capacity < (after alloc calls).nEvents + 1) :
    IsGreatest (insert 10 {n | Grown alloc (calls ++ [.addHandle fd events]) n})
      ((after alloc (calls ++ [.addHandle fd events])).events.size : Int) := by
  have hevents : (after alloc (calls ++ [.addHandle fd events])).events =
      (after alloc calls).events.resize alloc ((after alloc calls).nEvents + 1).toNat := by
    rw [after_append]
    exact if_pos hgrows
  have hcapacity := (after alloc calls).events.size_le
  have htoNat : (((after alloc calls).nEvents + 1).toNat : Int) =
      (after alloc calls).nEvents + 1 := by omega
  have hupper : ∀ n ∈ insert 10 {n | Grown alloc calls n},
      n ≤ (after alloc calls).nEvents + 1 := by
    intro n hn
    have hle := h.2 hn
    omega
  rw [hevents, EventArray.size_resize, htoNat]
  constructor
  · exact .inr (grown_append.mpr (.inr ⟨⟨fd, events, rfl⟩, hgrows, rfl⟩))
  · rintro n (rfl | hgrown)
    · exact hupper 10 (Set.mem_insert 10 _)
    · rcases grown_append.mp hgrown with hgrown | ⟨-, -, rfl⟩
      · exact hupper n (.inr hgrown)
      · exact le_rfl

/-- The size is the greatest number the vector was resized to, the constructor's
included. -/
theorem isGreatest_size (alloc : Allocator) (calls : List SelectorCall) :
    IsGreatest (insert 10 {n | Grown alloc calls n}) ((after alloc calls).events.size : Int) := by
  induction calls using List.reverseRecOn with
  | nil =>
    have hsize : (after alloc []).events.size = 10 := EventArray.size_resize 10
    rw [hsize]
    constructor
    · exact Set.mem_insert 10 _
    · rintro n (rfl | hgrown)
      · exact le_rfl
      · exact (grown_nil hgrown).elim
  | append_singleton calls call ih =>
    by_cases hadd : (∃ fd events, call = .addHandle fd events) ∧
        (after alloc calls).events.capacity < (after alloc calls).nEvents + 1
    · obtain ⟨⟨fd, events, rfl⟩, hgrows⟩ := hadd
      exact isGreatest_of_grown ih hgrows
    · apply isGreatest_of_same ih
      · intro n
        rw [grown_append, or_iff_left_iff_imp]
        rintro ⟨hcall, hlt, rfl⟩
        exact (hadd ⟨hcall, hlt⟩).elim
      · rw [after_append]
        cases call with
        | addHandle fd events =>
          apply if_neg
          intro hlt
          exact hadd ⟨⟨fd, events, rfl⟩, hlt⟩
        | updateEvent fd events => rfl
        | rmHandle fd => rfl

/-- The vector is large enough if and only if there are fewer than ten descriptors,
or fewer than it was resized to before. -/
theorem fits_iff (alloc : Allocator) (calls : List SelectorCall) :
    (after alloc calls).Fits ↔ (after alloc calls).nEvents < 10 ∨
      ∃ n, Grown alloc calls n ∧ (after alloc calls).nEvents < n := by
  obtain ⟨hmem, hupper⟩ := isGreatest_size alloc calls
  rw [Fits, Int.add_one_le_iff]
  constructor
  · intro hlt
    rcases hmem with hsize | hgrown
    · exact .inl (hsize ▸ hlt)
    · exact .inr ⟨_, hgrown, hlt⟩
  · rintro (hlt | ⟨n, hgrown, hlt⟩)
    · exact hlt.trans_le (hupper (Set.mem_insert 10 _))
    · exact hlt.trans_le (hupper (.inr hgrown))

/-- The vector is large enough throughout if and only if there are always fewer than
ten descriptors. -/
theorem fits_always_iff (alloc : Allocator) (calls : List SelectorCall) :
    (∀ past, past <+: calls → (after alloc past).Fits) ↔
      ∀ past, past <+: calls → (after alloc past).nEvents < 10 := by
  constructor
  · intro hfits
    have hsmall : ∀ past, past <+: calls →
        (after alloc past).nEvents < 10 ∧ (after alloc past).events.size = 10 := by
      intro past
      induction past using List.reverseRecOn with
      | nil =>
        intro _
        exact ⟨show (0 : Int) < 10 by decide, EventArray.size_resize 10⟩
      | append_singleton past call ih =>
        intro hpre
        obtain ⟨hlt, hsize⟩ := ih ((List.prefix_append past [call]).trans hpre)
        have hroom := hfits _ hpre
        have hcapacity := (after alloc past).events.size_le
        rw [Fits, after_append] at hroom
        rw [after_append]
        cases call with
        | addHandle fd events =>
          have hsame : ((after alloc past).step alloc (.addHandle fd events)).events =
              (after alloc past).events := if_neg (by omega)
          rw [hsame, hsize] at hroom
          rw [hsame]
          exact ⟨by omega, hsize⟩
        | updateEvent fd events => exact ⟨hlt, hsize⟩
        | rmHandle fd => exact ⟨(Int.sub_one_lt_iff.mpr hlt.le), hsize⟩
    intro past hpre
    exact (hsmall past hpre).1
  · intro hsmall past hpre
    exact (fits_iff alloc past).mpr (.inl (hsmall past hpre))

/-! ### Back ends -/

section BackEnd

variable {σ χ : Type} {sel : Selector σ χ} {slots : σ → Slots} {s s' : σ}

/-- A back end whose calls do this to the two of its fields. -/
theorem exec_after
    (hstep : ∀ s call, Ensures (sel.step s call) (fun s' => slots s' = (slots s).step alloc call)
      fun _ => True)
    (hs : slots s = ⟨0, .init alloc⟩) (hrun : exec sel.step s calls = .ok s') :
    slots s' = after alloc calls := by
  rw [after, ← hs]
  clear hs
  induction calls generalizing s with
  | nil =>
    cases hrun
    rfl
  | cons call calls ih =>
    obtain ⟨s₁, hcall, hrest⟩ := exec_cons_eq_ok.mp hrun
    rw [ih hrest, (hstep s call).of_ok hcall]
    rfl

theorem allReached_iff
    (hstep : ∀ s call, Ensures (sel.step s call) (fun s' => slots s' = (slots s).step alloc call)
      fun _ => True)
    (hs : slots s = ⟨0, .init alloc⟩) (hrun : exec sel.step s calls = .ok s') (G : Slots → Prop) :
    AllReached sel.step (fun s => G (slots s)) s calls ↔
      ∀ past, past <+: calls → G (after alloc past) := by
  constructor
  · intro hreached past hpre
    obtain ⟨s₁, hpast⟩ := exec_of_prefix hrun hpre
    rw [← exec_after hstep hs hpast]
    exact hreached past hpre s₁ hpast
  · intro hpast past hpre s₁ hs₁
    rw [exec_after hstep hs hs₁]
    exact hpast past hpre

end BackEnd

end Slots

end MixServer.Net
