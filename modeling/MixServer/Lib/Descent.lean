import Mathlib.Data.Fintype.Card
import Mathlib.Logic.Relation

/-!
Recursive walks over a graph that keep no record of the nodes on the way.

A `Walk` handles the items of a node in order: each changes a state, and may make the walk
descend to another node before it goes on. `run` takes fuel for the depth of the recursion;
its exhaustion is `none`.

`Follows` says that the walk descends along the edges of a graph, whatever it does to the
state. `run_iff_acc` then reads the end of the walk off the graph: there is fuel enough iff
no path from the node goes on for ever. In a finite graph that means no cycle can be reached,
`acc_iff_acyclic`.
-/

namespace Lib

open Relation

universe u

variable {σ ν ι : Type u}

/-- What a recursive function does at a node: `items` are read off the state when the call
begins, `act` is the effect of one of them, and `next` the node that it descends to. The
recursive call gets the state that `enter` makes, and `leave` what the caller's state becomes
with its result. -/
structure Walk (σ ν ι : Type u) where
  items : σ → ν → List ι
  act : σ → ν → ι → σ
  next : σ → ν → ι → Option ν
  enter : σ → σ
  leave : σ → σ → σ

namespace Walk

variable (w : Walk σ ν ι)

/-- One item, with `rec` for the recursive call. -/
def visit (rec : σ → ν → Option σ) (n : ν) (s : σ) (i : ι) : Option σ :=
  match w.next s n i with
  | none => some (w.act s n i)
  | some m => (rec (w.enter (w.act s n i)) m).map (w.leave (w.act s n i))

/-- The walk from a node, with fuel for the depth of its calls. -/
def run : Nat → σ → ν → Option σ
  | 0, _, _ => none
  | fuel + 1, s, n => (w.items s n).foldlM (w.visit (run fuel) n) s

/-- In the states of `I` the walk descends along the edges of `E`, and along all of them. -/
structure Follows (I : σ → Prop) (E : ν → ν → Prop) : Prop where
  act : ∀ {s s' n i}, I s → I s' → i ∈ w.items s n → I (w.act s' n i)
  enter : ∀ {s}, I s → I (w.enter s)
  leave : ∀ {s s'}, I s → I s' → I (w.leave s s')
  edge_of_next : ∀ {s s' n i m}, I s → I s' → i ∈ w.items s n → w.next s' n i = some m → E n m
  next_of_edge : ∀ {s n m}, I s → E n m → ∃ i ∈ w.items s n, ∀ s', I s' → w.next s' n i = some m

end Walk

/-! ### Loops that may stop -/

/-- What a step of a loop keeps, the loop keeps. -/
theorem foldlM_inv {I : σ → Prop} {f : σ → ι → Option σ} {l : List ι}
    (hf : ∀ s, ∀ i ∈ l, ∀ s', I s → f s i = some s' → I s') {s s' : σ} (hs : I s)
    (h : l.foldlM f s = some s') : I s' := by
  induction l generalizing s with
  | nil =>
    cases h
    exact hs
  | cons i l ih =>
    rw [List.foldlM_cons] at h
    obtain ⟨s₁, h₁, hrest⟩ := Option.bind_eq_some_iff.mp h
    exact ih (fun s j hj => hf s j (List.mem_cons_of_mem i hj))
      (hf s i List.mem_cons_self s₁ hs h₁) hrest

/-- In a loop that ends, each round has ended. -/
theorem foldlM_mem {I : σ → Prop} {f : σ → ι → Option σ} {l : List ι}
    (hf : ∀ s, ∀ i ∈ l, ∀ s', I s → f s i = some s' → I s') {s s' : σ} (hs : I s)
    (h : l.foldlM f s = some s') {i : ι} (hi : i ∈ l) : ∃ s₁ s₂, I s₁ ∧ f s₁ i = some s₂ := by
  induction l generalizing s with
  | nil => cases hi
  | cons j l ih =>
    rw [List.foldlM_cons] at h
    obtain ⟨s₁, h₁, hrest⟩ := Option.bind_eq_some_iff.mp h
    rcases List.mem_cons.mp hi with rfl | hmem
    · exact ⟨s, s₁, hs, h₁⟩
    · exact ih (fun s i hi => hf s i (List.mem_cons_of_mem j hi))
        (hf s j List.mem_cons_self s₁ hs h₁) hrest hmem

/-- A loop whose rounds end with the same results. -/
theorem foldlM_mono {f g : σ → ι → Option σ} (hfg : ∀ s i s', f s i = some s' → g s i = some s')
    {l : List ι} {s s' : σ} (h : l.foldlM f s = some s') : l.foldlM g s = some s' := by
  induction l generalizing s with
  | nil => exact h
  | cons i l ih =>
    rw [List.foldlM_cons] at h ⊢
    obtain ⟨s₁, h₁, hrest⟩ := Option.bind_eq_some_iff.mp h
    exact Option.bind_eq_some_iff.mpr ⟨s₁, hfg s i s₁ h₁, ih hrest⟩

/-- A loop of which each round succeeds, and adds its key to those that are done. -/
theorem foldlM_keys {m : Type u → Type*} [Monad m] [LawfulMonad m] {α : Type*} (key : ι → α)
    (I : Set α → σ → Prop) {f : σ → ι → m σ} {l : List ι} {s : σ}
    (hf : ∀ A s, ∀ i ∈ l, I A s → ∃ s', f s i = pure s' ∧ I (insert (key i) A) s')
    (hs : I ∅ s) : ∃ s', l.foldlM f s = pure s' ∧ I {a | ∃ i ∈ l, key i = a} s' := by
  have hfrom : ∀ A s, I A s → ∃ s', l.foldlM f s = pure s' ∧
      I (A ∪ {a | ∃ i ∈ l, key i = a}) s' := by
    induction l with
    | nil =>
      intro A s hs
      refine ⟨s, List.foldlM_nil, ?_⟩
      simpa using hs
    | cons i l ih =>
      intro A s hs
      obtain ⟨s₁, h₁, hs₁⟩ := hf A s i List.mem_cons_self hs
      obtain ⟨s', h', hs'⟩ := ih (fun A s j hj => hf A s j (List.mem_cons_of_mem i hj))
        (insert (key i) A) s₁ hs₁
      refine ⟨s', by rw [List.foldlM_cons, h₁, pure_bind, h'], ?_⟩
      have hkeys : insert (key i) A ∪ {a | ∃ j ∈ l, key j = a} =
          A ∪ {a | ∃ j ∈ i :: l, key j = a} := by
        ext a
        simp only [Set.mem_union, Set.mem_insert_iff, List.exists_mem_cons_iff, Set.mem_ofPred_eq]
        tauto
      rwa [← hkeys]
  simpa using hfrom ∅ s hs

namespace Walk

variable {w : Walk σ ν ι} {I : σ → Prop} {E : ν → ν → Prop} {s s' : σ} {n : ν}

/-- An item whose call ends with the same result. -/
theorem visit_mono {rec rec' : σ → ν → Option σ}
    (hrec : ∀ s m s', rec s m = some s' → rec' s m = some s') {i : ι}
    (h : w.visit rec n s i = some s') : w.visit rec' n s i = some s' := by
  rw [visit] at h ⊢
  split at h
  · exact h
  · obtain ⟨s₁, hcall, rfl⟩ := Option.map_eq_some_iff.mp h
    exact Option.map_eq_some_iff.mpr ⟨s₁, hrec _ _ _ hcall, rfl⟩

/-- More fuel changes no result. -/
theorem run_mono {fuel fuel' : Nat} (h : w.run fuel s n = some s') (hle : fuel ≤ fuel') :
    w.run fuel' s n = some s' := by
  induction fuel generalizing fuel' s s' n with
  | zero => cases h
  | succ fuel ih =>
    obtain ⟨fuel', rfl⟩ : ∃ k, fuel' = k + 1 := ⟨fuel' - 1, by omega⟩
    exact foldlM_mono (fun _ _ _ hvisit =>
      visit_mono (fun _ _ _ hcall => ih hcall (Nat.le_of_succ_le_succ hle)) hvisit) h

/-- An item keeps the invariant if the calls do. -/
theorem Follows.visit (h : w.Follows I E) {rec : σ → ν → Option σ}
    (hrec : ∀ s m s', I s → rec s m = some s' → I s') {i : ι} {s₀ : σ} (hs₀ : I s₀)
    (hi : i ∈ w.items s₀ n) (hs : I s) (hvisit : w.visit rec n s i = some s') : I s' := by
  have hact := h.act hs₀ hs hi
  rw [Walk.visit] at hvisit
  split at hvisit
  · cases hvisit
    exact hact
  · obtain ⟨s₁, hcall, rfl⟩ := Option.map_eq_some_iff.mp hvisit
    exact h.leave hact (hrec _ _ _ (h.enter hact) hcall)

theorem Follows.run (h : w.Follows I E) {fuel : Nat} (hs : I s) (hrun : w.run fuel s n = some s') :
    I s' := by
  induction fuel generalizing s s' n with
  | zero => cases hrun
  | succ fuel ih =>
    exact foldlM_inv (fun _ i hi _ hs₁ => h.visit (fun _ _ _ => ih) hs hi hs₁) hs hrun

/-- A walk that ends has no endless path before it. -/
theorem Follows.acc_of_run (h : w.Follows I E) {fuel : Nat} (hs : I s)
    (hrun : w.run fuel s n = some s') : Acc (fun m n => E n m) n := by
  induction fuel generalizing s s' n with
  | zero => cases hrun
  | succ fuel ih =>
    constructor
    intro m hedge
    obtain ⟨i, hi, hnext⟩ := h.next_of_edge hs hedge
    obtain ⟨s₁, s₂, hs₁, hvisit⟩ := foldlM_mem
      (fun _ j hj _ hs₁ => h.visit (fun _ _ _ => h.run) hs hj hs₁) hs hrun hi
    rw [Walk.visit, hnext s₁ hs₁] at hvisit
    obtain ⟨s₃, hcall, -⟩ := Option.map_eq_some_iff.mp hvisit
    exact ih (h.enter (h.act hs hs₁ hi)) hcall

/-- A walk with no endless path before it ends, in whatever state it begins. -/
theorem Follows.run_of_acc (h : w.Follows I E) (hacc : Acc (fun m n => E n m) n) (hs : I s) :
    ∃ fuel s', w.run fuel s n = some s' := by
  induction hacc generalizing s with
  | intro n _ ih =>
    have hloop : ∀ l : List ι, (∀ i ∈ l, i ∈ w.items s n) → ∀ s₁, I s₁ →
        ∃ fuel s', l.foldlM (w.visit (w.run fuel) n) s₁ = some s' := by
      intro l
      induction l with
      | nil =>
        intro _ s₁ _
        exact ⟨0, s₁, rfl⟩
      | cons i l ihl =>
        intro hl s₁ hs₁
        have hrest := ihl fun j hj => hl j (List.mem_cons_of_mem i hj)
        have hi := hl i List.mem_cons_self
        have hact := h.act hs hs₁ hi
        -- the item and the rest each need some fuel, and more does no harm
        obtain ⟨fuel₁, s₂, hs₂, hitem⟩ : ∃ fuel s₂, I s₂ ∧
            w.visit (w.run fuel) n s₁ i = some s₂ := by
          cases hnext : w.next s₁ n i with
          | none => exact ⟨0, w.act s₁ n i, hact, by rw [Walk.visit, hnext]⟩
          | some m =>
            have hedge := h.edge_of_next hs hs₁ hi hnext
            obtain ⟨fuel, s₂, hcall⟩ := ih m hedge (h.enter hact)
            refine ⟨fuel, w.leave (w.act s₁ n i) s₂,
              h.leave hact (h.run (h.enter hact) hcall), ?_⟩
            rw [Walk.visit, hnext]
            exact Option.map_eq_some_iff.mpr ⟨s₂, hcall, rfl⟩
        obtain ⟨fuel₂, s', hrun⟩ := hrest s₂ hs₂
        refine ⟨max fuel₁ fuel₂, s', ?_⟩
        rw [List.foldlM_cons]
        refine Option.bind_eq_some_iff.mpr ⟨s₂, ?_, ?_⟩
        · exact visit_mono (fun _ _ _ hcall => run_mono hcall (Nat.le_max_left fuel₁ fuel₂)) hitem
        · exact foldlM_mono (fun _ _ _ hvisit => visit_mono
            (fun _ _ _ hcall => run_mono hcall (Nat.le_max_right fuel₁ fuel₂)) hvisit) hrun
    obtain ⟨fuel, s', hrun⟩ := hloop (w.items s n) (fun _ => id) s hs
    exact ⟨fuel + 1, s', hrun⟩

/-- A walk ends iff no path goes on for ever. -/
theorem Follows.run_iff_acc (h : w.Follows I E) (hs : I s) :
    (∃ fuel, (w.run fuel s n).isSome) ↔ Acc (fun m n => E n m) n := by
  constructor
  · rintro ⟨fuel, hrun⟩
    obtain ⟨s', hs'⟩ := Option.isSome_iff_exists.mp hrun
    exact h.acc_of_run hs hs'
  · intro hacc
    obtain ⟨fuel, s', hrun⟩ := h.run_of_acc hacc hs
    exact ⟨fuel, Option.isSome_iff_exists.mpr ⟨s', hrun⟩⟩

end Walk

/-! ### Finite graphs -/

/-- A node that has no endless path before it is not before itself. -/
theorem not_of_acc {ν : Type u} {r : ν → ν → Prop} {n : ν} (h : Acc r n) : ¬ r n n := by
  induction h with
  | intro n _ ih =>
    intro hself
    exact ih n hself hself

/-- Where finitely many nodes can be reached, the paths from a node end iff no cycle can. -/
theorem acc_iff_acyclic {ν : Type u} {E : ν → ν → Prop} {n : ν}
    (hfin : {m | ReflTransGen E n m}.Finite) :
    Acc (fun m n => E n m) n ↔ ∀ m, ReflTransGen E n m → ¬ TransGen E m m := by
  constructor
  · intro hacc m hreach
    have hm : Acc (fun m n => E n m) m := by
      induction hreach with
      | refl => exact hacc
      | tail _ hedge ih => exact ih.inv hedge
    intro hcycle
    exact not_of_acc hm.transGen (transGen_swap.mpr hcycle)
  · intro hacyclic
    let R : {m // ReflTransGen E n m} → {m // ReflTransGen E n m} → Prop :=
      fun x y => TransGen E y.1 x.1
    have : Finite {m // ReflTransGen E n m} := hfin
    have : IsTrans _ R := ⟨fun _ _ _ hxy hyz => hyz.trans hxy⟩
    have : Std.Irrefl R := ⟨fun x => hacyclic x.1 x.2⟩
    have hwf : WellFounded R := Finite.wellFounded_of_trans_of_irrefl R
    have hdown : ∀ x, Acc R x → Acc (fun m n => E n m) x.1 := by
      intro x hx
      induction hx with
      | intro x _ ih =>
        constructor
        intro m hedge
        exact ih ⟨m, x.2.tail hedge⟩ (.single hedge)
    exact hdown ⟨n, .refl⟩ (hwf.apply _)

end Lib
