import MixServer.Lib.Descent
import Mathlib.Data.Finite.Prod
import Mathlib.Data.Finite.Sum
import Mathlib.Data.List.AList

/-!
The walk of a hot reload (`script/reload_mgr.py`): `copy_obj` and `update_dict` take a
module's dictionary from before the reload and its present one, `copy_dict` the namespaces
of an older version of a class and of the newest. All descend from a pair of classes under
one name to the pair of their namespaces.

No record is kept of the pairs that have been visited, so the walk ends iff no cycle of such
pairs can be reached: `terminates_iff`. A class that is an attribute of itself, in both
versions, already makes one.

Classes are old-style ones, whose `__dict__` is a dictionary. A dictionary that a name is
bound to is an object of its own here, never the namespace of a class or a module.
-/

namespace MixServer.Script.Reload

open Lib Relation

/-- Names of a module or a class. -/
abbrev Name := String

/-- `k.startswith("__")`. -/
def dunder (k : Name) : Bool := "__".toList.isPrefixOf k.toList

/-- What a name is bound to. Classes, methods and dictionaries are objects with an
identity; a method is of one of the types in `method_names`. -/
inductive Val (κ : Type) where
  | cls (c : κ)
  | method (f : Nat)
  | dict (d : Nat)
  | other (v : Nat)
deriving DecidableEq, Repr

/-- A dictionary with names as its keys; `items()` lists it in some order. -/
abbrev Namespace (κ : Type) := AList fun _ : Name => Val κ

/-- `weak_refs`: the classes that a reload found under its names. -/
abbrev WeakRefs (κ : Type) := AList fun _ : Name => κ

/-- The owners of the namespaces: `old_mod_dict` and `new_mod_dict`, and the classes. -/
inductive Space (κ : Type) where
  | oldMod
  | newMod
  | cls (c : κ)
deriving DecidableEq, Repr

/-- The namespaces, and the dictionaries that names are bound to. -/
structure Heap (κ : Type) where
  ns : Space κ → Namespace κ
  dicts : Nat → Namespace κ

/-- What `copy_obj` is called with: classes, or the dictionaries of modules and classes. -/
inductive Obj (κ : Type) where
  | cls (c : κ)
  | dict (s : Space κ)

variable {κ : Type} [DecidableEq κ]

namespace Heap

/-- `s[k] = v`. -/
def bind (h : Heap κ) (s : Space κ) (k : Name) (v : Val κ) : Heap κ :=
  { h with ns := Function.update h.ns s ((h.ns s).insert k v) }

/-- `d.update(d')`: what both have, `d'` decides. -/
def updateWith (h : Heap κ) (d d' : Nat) : Heap κ :=
  { h with dicts := Function.update h.dicts d (h.dicts d' ∪ h.dicts d) }

omit [DecidableEq κ] in
@[simp] theorem updateWith_ns (h : Heap κ) (d d' : Nat) : (h.updateWith d d').ns = h.ns := rfl

theorem lookup_bind (h : Heap κ) (s s' : Space κ) (k k' : Name) (v : Val κ) :
    ((h.bind s k v).ns s').lookup k' =
      if s' = s ∧ k' = k then some v else (h.ns s').lookup k' := by
  simp only [bind]
  rcases eq_or_ne s' s with rfl | hs
  · rw [Function.update_self]
    rcases eq_or_ne k' k with rfl | hk
    · rw [AList.lookup_insert, if_pos ⟨rfl, rfl⟩]
    · rw [AList.lookup_insert_ne hk, if_neg fun heq => hk heq.2]
  · rw [Function.update_of_ne hs, if_neg fun heq => hs heq.1]

end Heap

/-! ### The functions -/

/-- `update_dict` of two dictionaries, with fuel for its depth. The call of `copy_obj` on two
classes is the call of `update_dict` on their namespaces. -/
def updateDict : Nat → Heap κ → Space κ → Space κ → Option (WeakRefs κ) →
    Option (Heap κ × Option (WeakRefs κ))
  | 0, _, _, _, _ => none
  | fuel + 1, h, old, new, weak =>
      (h.ns new).entries.foldlM (fun (h, weak) ⟨k, v⟩ =>
        if dunder k then
          some (h, weak)
        else
          match (h.ns old).lookup k, v with
          | some (.cls c), .cls c' =>
              (updateDict fuel h (.cls c) (.cls c') none).map
                fun (h', _) => (h', weak.map (AList.insert k c))
          | some (.method _), .method _ => some (h.bind old k v, weak)
          | some (.dict d), .dict d' => some (h.updateWith d' d, weak)
          | _, _ => some (h, weak)) (h, weak)

/-- `copy_obj`. -/
def copyObj (fuel : Nat) (h : Heap κ) :
    Obj κ → Obj κ → Option (WeakRefs κ) → Option (Heap κ × Option (WeakRefs κ))
  | .cls c, .cls c', weak => updateDict fuel h (.cls c) (.cls c') weak
  | .dict s, .dict s', weak => updateDict fuel h s s' weak
  | _, _, weak => some (h, weak)

/-- `copy_dict`, with fuel for its depth. -/
def copyDict : Nat → Heap κ → Space κ → Space κ → Option (Heap κ)
  | 0, _, _, _ => none
  | fuel + 1, h, old, new =>
      (h.ns old).entries.foldlM (fun h ⟨k, v⟩ =>
        match v, (h.ns new).lookup k with
        | .cls c, some (.cls c') => copyDict fuel h (.cls c) (.cls c')
        | .method _, some (.method f) => some (h.bind old k (.method f))
        | _, _ => some h) h

/-! ### The functions as walks over pairs of namespaces -/

/-- A namespace of an older version and one of a newer. -/
abbrev Pair (κ : Type) := Space κ × Space κ

/-- `update_dict` as a walk. -/
def updateWalk : Walk (Heap κ × Option (WeakRefs κ)) (Pair κ) (Sigma fun _ : Name => Val κ) where
  items := fun (h, _) (_, new) => (h.ns new).entries
  act := fun (h, weak) (old, _) ⟨k, v⟩ =>
    if dunder k then
      (h, weak)
    else
      match (h.ns old).lookup k, v with
      | some (.cls c), .cls _ => (h, weak.map (AList.insert k c))
      | some (.method _), .method _ => (h.bind old k v, weak)
      | some (.dict d), .dict d' => (h.updateWith d' d, weak)
      | _, _ => (h, weak)
  next := fun (h, _) (old, _) ⟨k, v⟩ =>
    if dunder k then
      none
    else
      match (h.ns old).lookup k, v with
      | some (.cls c), .cls c' => some (.cls c, .cls c')
      | _, _ => none
  enter := fun (h, _) => (h, none)
  leave := fun (_, weak) (h, _) => (h, weak)

theorem updateDict_eq_run (fuel : Nat) (h : Heap κ) (old new : Space κ)
    (weak : Option (WeakRefs κ)) :
    updateDict fuel h old new weak = updateWalk.run fuel (h, weak) (old, new) := by
  induction fuel generalizing h old new weak with
  | zero => rfl
  | succ fuel ih =>
    rw [updateDict, Walk.run]
    congr 1
    funext ⟨h₁, weak₁⟩ ⟨k, v⟩
    simp only [Walk.visit, updateWalk, ih]
    split
    · rfl
    · generalize (h₁.ns old).lookup k = r
      rcases r with _ | ⟨_ | _ | _ | _⟩ <;> rcases v with _ | _ | _ | _ <;> rfl

/-- `copy_dict` as a walk. -/
def copyWalk : Walk (Heap κ) (Pair κ) (Sigma fun _ : Name => Val κ) where
  items := fun h (old, _) => (h.ns old).entries
  act := fun h (old, new) ⟨k, v⟩ =>
    match v, (h.ns new).lookup k with
    | .method _, some (.method f) => h.bind old k (.method f)
    | _, _ => h
  next := fun h (_, new) ⟨k, v⟩ =>
    match v, (h.ns new).lookup k with
    | .cls c, some (.cls c') => some (.cls c, .cls c')
    | _, _ => none
  enter := id
  leave := fun _ h => h

theorem copyDict_eq_run (fuel : Nat) (h : Heap κ) (old new : Space κ) :
    copyDict fuel h old new = copyWalk.run fuel h (old, new) := by
  induction fuel generalizing h old new with
  | zero => rfl
  | succ fuel ih =>
    rw [copyDict, Walk.run]
    congr 1
    funext h₁ ⟨k, v⟩
    simp only [Walk.visit, copyWalk, ih]
    generalize (h₁.ns new).lookup k = r
    rcases v with _ | _ | _ | _ <;> rcases r with _ | ⟨_ | _ | _ | _⟩ <;>
      first | rfl | exact Option.map_id'.symm

/-! ### What the walks leave alone -/

section Graph

omit [DecidableEq κ]

/-- The names bound to classes are the same, and bound to the same classes. -/
def SameClasses (h h' : Heap κ) : Prop :=
  ∀ s k c, (h'.ns s).lookup k = some (.cls c) ↔ (h.ns s).lookup k = some (.cls c)

/-- A name that both namespaces bind to classes, and for which `P` holds, leads to the pair of
these classes. -/
def Edge (P : Name → Prop) (h : Heap κ) (p q : Pair κ) : Prop :=
  ∃ k c c', P k ∧ (h.ns p.1).lookup k = some (.cls c) ∧ (h.ns p.2).lookup k = some (.cls c') ∧
    q = (.cls c, .cls c')

theorem SameClasses.refl (h : Heap κ) : SameClasses h h := fun _ _ _ => Iff.rfl

/-- Fewer names, fewer edges. -/
theorem Edge.mono {P Q : Name → Prop} (hPQ : ∀ k, P k → Q k) {h : Heap κ} {p q : Pair κ}
    (hedge : Edge P h p q) : Edge Q h p q := by
  obtain ⟨k, c, c', hP, hrest⟩ := hedge
  exact ⟨k, c, c', hPQ k hP, hrest⟩

end Graph

/-- A name that is bound to a method may be bound to another. -/
theorem SameClasses.bind {h h₁ h₂ : Heap κ} (hsame₁ : SameClasses h h₁)
    (hsame₂ : SameClasses h h₂) {s : Space κ} {k : Name} {f f' : Nat}
    (hk : (h₁.ns s).lookup k = some (.method f)) :
    SameClasses h (h₂.bind s k (.method f')) := by
  intro s' k' c
  rw [Heap.lookup_bind]
  split
  · rename_i heq
    obtain ⟨rfl, rfl⟩ := heq
    rw [← hsame₁ s' k' c, hk]
    constructor <;> intro hcls <;> cases hcls
  · exact hsame₂ s' k' c

/-- `update_dict` follows the names that do not begin with `__`. -/
theorem updateWalk_follows (h : Heap κ) :
    updateWalk.Follows (fun s => SameClasses h s.1) (Edge (fun k => dunder k = false) h) where
  act := by
    rintro - ⟨h₁, weak⟩ ⟨old, new⟩ ⟨k, v⟩ - hsame -
    simp only [updateWalk]
    split
    · exact hsame
    · split
      · exact hsame
      · rename_i hold
        exact hsame.bind hsame hold
      · exact hsame
      · exact hsame
  enter := id
  leave := fun _ hsame => hsame
  edge_of_next := by
    rintro ⟨h₁, weak₁⟩ ⟨h₂, weak₂⟩ ⟨old, new⟩ ⟨k, v⟩ m hsame₁ hsame₂ hmem hnext
    simp only [updateWalk] at hnext
    split at hnext
    · cases hnext
    · rename_i hplain
      split at hnext
      · rename_i c c' hold
        cases hnext
        have hnew : (h₁.ns new).lookup k = some (.cls c') := AList.mem_lookup_iff.mpr hmem
        exact ⟨k, c, c', by simpa using hplain, (hsame₂ old k c).mp hold,
          (hsame₁ new k c').mp hnew, rfl⟩
      · cases hnext
  next_of_edge := by
    rintro ⟨h₁, weak₁⟩ ⟨old, new⟩ m hsame ⟨k, c, c', hplain, hold, hnew, rfl⟩
    refine ⟨⟨k, .cls c'⟩, AList.mem_lookup_iff.mp ((hsame new k c').mpr hnew), ?_⟩
    rintro ⟨h₂, weak₂⟩ hsame₂
    simp only [updateWalk, hplain, (hsame₂ old k c).mpr hold]
    rfl

/-- `copy_dict` follows all names. -/
theorem copyWalk_follows (h : Heap κ) :
    copyWalk.Follows (SameClasses h) (Edge (fun _ => True) h) where
  act := by
    rintro h₁ h₂ ⟨old, new⟩ ⟨k, v⟩ hsame₁ hsame₂ hmem
    simp only [copyWalk]
    split
    · exact hsame₁.bind hsame₂ (AList.mem_lookup_iff.mpr hmem)
    · exact hsame₂
  enter := id
  leave := fun _ hsame => hsame
  edge_of_next := by
    rintro h₁ h₂ ⟨old, new⟩ ⟨k, v⟩ m hsame₁ hsame₂ hmem hnext
    simp only [copyWalk] at hnext
    split at hnext
    · rename_i c c' hnew
      cases hnext
      have hold : (h₁.ns old).lookup k = some (.cls c) := AList.mem_lookup_iff.mpr hmem
      exact ⟨k, c, c', trivial, (hsame₁ old k c).mp hold, (hsame₂ new k c').mp hnew, rfl⟩
    · cases hnext
  next_of_edge := by
    rintro h₁ ⟨old, new⟩ m hsame ⟨k, c, c', -, hold, hnew, rfl⟩
    refine ⟨⟨k, .cls c⟩, AList.mem_lookup_iff.mp ((hsame old k c).mpr hold), ?_⟩
    intro h₂ hsame₂
    simp only [copyWalk, (hsame₂ new k c').mpr hnew]

/-! ### When the walks end -/

/-- `copy_obj`, `update_dict` and `copy_dict` end on a pair of dictionaries. -/
def Terminates (h : Heap κ) (old new : Space κ) (weak : Option (WeakRefs κ)) : Prop :=
  (∃ fuel, (copyObj fuel h (.dict old) (.dict new) weak).isSome) ∧
    (∃ fuel, (updateDict fuel h old new weak).isSome) ∧
    ∃ fuel, (copyDict fuel h old new).isSome

/-- The pairs of namespaces that descending from `p` can lead to. -/
def Below (h : Heap κ) (p : Pair κ) : Set (Pair κ) :=
  {q | ReflTransGen (Edge (fun _ => True) h) p q}

/-- Below `p` no descent leads back to where it began. -/
def Acyclic (h : Heap κ) (p : Pair κ) : Prop :=
  ∀ q ∈ Below h p, ¬ TransGen (Edge (fun _ => True) h) q q

theorem updateDict_iff_acc {h : Heap κ} {old new : Space κ} {weak : Option (WeakRefs κ)} :
    (∃ fuel, (updateDict fuel h old new weak).isSome) ↔
      Acc (fun q p => Edge (fun k => dunder k = false) h p q) (old, new) := by
  simp only [updateDict_eq_run]
  exact (updateWalk_follows h).run_iff_acc (SameClasses.refl h)

theorem copyDict_iff_acc {h : Heap κ} {old new : Space κ} :
    (∃ fuel, (copyDict fuel h old new).isSome) ↔
      Acc (fun q p => Edge (fun _ => True) h p q) (old, new) := by
  simp only [copyDict_eq_run]
  exact (copyWalk_follows h).run_iff_acc (SameClasses.refl h)

/-- Among finitely many pairs, the walks end iff no cycle of pairs can be reached. -/
theorem terminates_iff (h : Heap κ) (old new : Space κ) (weak : Option (WeakRefs κ))
    (hfin : (Below h (old, new)).Finite) :
    Terminates h old new weak ↔ Acyclic h (old, new) := by
  have hacyclic := acc_iff_acyclic hfin
  constructor
  · rintro ⟨-, -, hcopy⟩
    exact hacyclic.mp (copyDict_iff_acc.mp hcopy)
  · intro h'
    have hacc := hacyclic.mpr h'
    have hupdate : ∃ fuel, (updateDict fuel h old new weak).isSome :=
      updateDict_iff_acc.mpr (Subrelation.accessible (Edge.mono fun _ _ => trivial) hacc)
    exact ⟨hupdate, hupdate, copyDict_iff_acc.mpr hacc⟩

omit [DecidableEq κ] in
/-- Finitely many classes make finitely many pairs. -/
theorem below_finite [Finite κ] (h : Heap κ) (p : Pair κ) : (Below h p).Finite := by
  have : Finite (Space κ) := by
    refine Finite.of_surjective (fun
      | .inl true => .oldMod
      | .inl false => .newMod
      | .inr c => .cls c : Bool ⊕ κ → Space κ) ?_
    rintro (_ | _ | c)
    · exact ⟨.inl true, rfl⟩
    · exact ⟨.inl false, rfl⟩
    · exact ⟨.inr c, rfl⟩
  exact Set.toFinite _

/-- A class in a class: `A`, which holds `B`, which has a method. -/
def nested : Heap (Fin 4) where
  ns
    | .oldMod => .singleton "A" (.cls 0)
    | .newMod => .singleton "A" (.cls 1)
    | .cls 0 => .singleton "B" (.cls 2)
    | .cls 1 => .singleton "B" (.cls 3)
    | .cls 2 => .singleton "run" (.method 0)
    | .cls 3 => .singleton "run" (.method 1)
  dicts := fun _ => ∅

theorem acyclic_nested : Acyclic nested (.oldMod, .newMod) :=
  (terminates_iff nested .oldMod .newMod (some ∅) (below_finite _ _)).mp
    ⟨⟨3, by decide⟩, ⟨3, by decide⟩, ⟨3, by decide⟩⟩

/-- A class that is its own attribute: `A.me = A`. -/
def selfReference : Heap (Fin 2) where
  ns
    | .oldMod => .singleton "A" (.cls 0)
    | .newMod => .singleton "A" (.cls 1)
    | .cls c => .singleton "me" (.cls c)
  dicts := fun _ => ∅

/-- No fuel is enough for it. -/
theorem endless_selfReference :
    (Below selfReference (.oldMod, .newMod)).Finite ∧
      (¬ ∃ fuel, (copyObj fuel selfReference (.dict .oldMod) (.dict .newMod) (some ∅)).isSome) ∧
      (¬ ∃ fuel, (updateDict fuel selfReference .oldMod .newMod (some ∅)).isSome) ∧
      ¬ ∃ fuel, (copyDict fuel selfReference .oldMod .newMod).isSome := by
  have hendless : ∀ P : Name → Prop, P "A" → P "me" →
      ¬ Acc (fun q p => Edge P selfReference p q) (.oldMod, .newMod) := by
    intro P hA hme hacc
    have hA' : Edge P selfReference (.oldMod, .newMod) (.cls 0, .cls 1) :=
      ⟨"A", 0, 1, hA, rfl, rfl, rfl⟩
    have hme' : Edge P selfReference (.cls 0, .cls 1) (.cls 0, .cls 1) :=
      ⟨"me", 0, 1, hme, rfl, rfl, rfl⟩
    exact not_of_acc (hacc.inv hA') hme'
  have hupdate : ¬ ∃ fuel, (updateDict fuel selfReference .oldMod .newMod (some ∅)).isSome := by
    rw [updateDict_iff_acc]
    exact hendless _ rfl rfl
  refine ⟨below_finite _ _, hupdate, hupdate, ?_⟩
  rw [copyDict_iff_acc]
  exact hendless _ trivial trivial

end MixServer.Script.Reload
