import MixServer.Lib.Run
import MixServer.Script.Reload

/-!
What the walks of a reload do to the classes of a module (`script/reload_mgr.py`), when the
attributes of the classes are methods, dictionaries and other values, but no classes.

Both walks then only bind methods of an older version to those of the newest. `Refreshed` says
for which names, and adds up over calls and loops. `update_dict` of the module leaves out the
names that begin with `__` (`updateDict_mods`); `update_weak_ref`, which calls `copy_dict`,
does not (`updateWeakRef_spec`).
-/

namespace MixServer.Script.Reload

open Lib

/-- A class object: the version of the module that made it, and its name there. -/
structure Class where
  version : Nat
  name : Name
deriving DecidableEq, Repr

/-- The value is a class. -/
def Val.isClass {κ : Type} : Val κ → Bool
  | .cls _ => true
  | _ => false

/-- Why `reload_mod` does not return. -/
inductive Failure where
  | recursion
  | assertion
deriving DecidableEq, Repr

/-! ### The weak references -/

/-- `update_weak_ref`, with fuel for `copy_dict`. The references to the classes in `dead` are
deleted; the assertion is that the name is still bound to a class. -/
def updateWeakRef (fuel : Nat) (dead : List Class) (h : Heap Class) (ref : WeakRefs Class) :
    Except Failure (Heap Class × WeakRefs Class) :=
  ref.entries.foldlM (fun (h, ref) ⟨k, c⟩ =>
    match (h.ns .newMod).lookup k with
    | none => .ok (h, ref)
    | some v =>
        if c ∈ dead then
          .ok (h, ref.erase k)
        else
          match v with
          | .cls c' =>
              match copyDict fuel h (.cls c) (.cls c') with
              | some h' => .ok (h', ref)
              | none => .error .recursion
          | _ => .error .assertion) (h, ref)

/-- The loop over `old_refs`. -/
def updateWeakRefs (fuel : Nat) (dead : List Class) (h : Heap Class) :
    List (WeakRefs Class) → Except Failure (Heap Class × List (WeakRefs Class))
  | [] => .ok (h, [])
  | ref :: refs =>
      updateWeakRef fuel dead h ref >>= fun (h, ref) =>
      updateWeakRefs fuel dead h refs >>= fun (h, refs) =>
      .ok (h, ref :: refs)

/-! ### Binding methods to those of the newest version -/

/-- What a name is bound to, once a method has given way to a newer one. -/
def merge : Option (Val Class) → Option (Val Class) → Option (Val Class)
  | some (.method _), some (.method g) => some (.method g)
  | x, _ => x

theorem merge_self (x : Option (Val Class)) : merge x x = x := by
  rcases x with _ | ⟨_ | _ | _ | _⟩ <;> rfl

theorem merge_none (x : Option (Val Class)) : merge x none = x := by
  rcases x with _ | ⟨_ | _ | _ | _⟩ <;> rfl

theorem merge_merge (x y : Option (Val Class)) : merge (merge x y) y = merge x y := by
  rcases x with _ | ⟨_ | _ | _ | _⟩ <;> rcases y with _ | ⟨_ | _ | _ | _⟩ <;> rfl

/-- Only a method gives way. -/
theorem merge_eq_cls {x y : Option (Val Class)} {c : Class} :
    merge x y = some (.cls c) ↔ x = some (.cls c) := by
  rcases x with _ | ⟨_ | _ | _ | _⟩ <;> rcases y with _ | ⟨_ | _ | _ | _⟩ <;> simp [merge]

theorem merge_eq_method {x : Option (Val Class)} {f g : Nat}
    (h : merge x (some (.method g)) = some (.method f)) : f = g := by
  rcases x with _ | ⟨_ | _ | _ | _⟩ <;> cases h
  rfl

/-- No attribute of a class is a class. -/
def Flat (h : Heap Class) : Prop := ∀ c m c', (h.ns (.cls c)).lookup m ≠ some (.cls c')

/-- In `h'` the names of `T` have been merged with the namespaces of `t`; the modules and all
other names are as in `h`. -/
structure Refreshed (t : Class → Class) (T : Set (Class × Name)) (h h' : Heap Class) : Prop where
  oldMod : h'.ns .oldMod = h.ns .oldMod
  newMod : h'.ns .newMod = h.ns .newMod
  inside : ∀ c m, (c, m) ∈ T → (h'.ns (.cls c)).lookup m =
    merge ((h.ns (.cls c)).lookup m) ((h.ns (.cls (t c))).lookup m)
  outside : ∀ c m, (c, m) ∉ T → (h'.ns (.cls c)).lookup m = (h.ns (.cls c)).lookup m

namespace Refreshed

variable {t : Class → Class} {T T' : Set (Class × Name)} {h h₁ h₂ : Heap Class}

theorem refl (t : Class → Class) (h : Heap Class) : Refreshed t ∅ h h where
  oldMod := rfl
  newMod := rfl
  inside := fun _ _ hmem => hmem.elim
  outside := fun _ _ _ => rfl

/-- The namespaces of `t` do not change. -/
theorem target (hr : Refreshed t T h h₁) (ht : ∀ c, t (t c) = t c) (c : Class) (m : Name) :
    (h₁.ns (.cls (t c))).lookup m = (h.ns (.cls (t c))).lookup m := by
  by_cases hmem : (t c, m) ∈ T
  · rw [hr.inside (t c) m hmem, ht, merge_self]
  · exact hr.outside (t c) m hmem

/-- What has been merged or is as it was, merges to the same. -/
theorem merge_left (hr : Refreshed t T h h₁) (c : Class) (m : Name) :
    merge ((h₁.ns (.cls c)).lookup m) ((h.ns (.cls (t c))).lookup m) =
      merge ((h.ns (.cls c)).lookup m) ((h.ns (.cls (t c))).lookup m) := by
  by_cases hmem : (c, m) ∈ T
  · rw [hr.inside c m hmem, merge_merge]
  · rw [hr.outside c m hmem]

theorem trans (hr : Refreshed t T h h₁) (hr' : Refreshed t T' h₁ h₂) (ht : ∀ c, t (t c) = t c) :
    Refreshed t (T ∪ T') h h₂ where
  oldMod := hr'.oldMod.trans hr.oldMod
  newMod := hr'.newMod.trans hr.newMod
  inside := by
    intro c m hmem
    by_cases hmem' : (c, m) ∈ T'
    · rw [hr'.inside c m hmem', hr.target ht, hr.merge_left]
    · rw [hr'.outside c m hmem', hr.inside c m (hmem.resolve_right hmem')]
  outside := by
    intro c m hmem
    rw [hr'.outside c m fun hT => hmem (.inr hT), hr.outside c m fun hT => hmem (.inl hT)]

/-- Names that merging does not change may be added. -/
theorem widen (hr : Refreshed t T h h₁) (hsub : T ⊆ T')
    (hkeep : ∀ c m, (c, m) ∈ T' → (c, m) ∉ T →
      merge ((h.ns (.cls c)).lookup m) ((h.ns (.cls (t c))).lookup m) =
        (h.ns (.cls c)).lookup m) : Refreshed t T' h h₁ where
  oldMod := hr.oldMod
  newMod := hr.newMod
  inside := by
    intro c m hmem
    by_cases hT : (c, m) ∈ T
    · exact hr.inside c m hT
    · rw [hr.outside c m hT, hkeep c m hmem hT]
  outside := fun c m hmem => hr.outside c m fun hT => hmem (hsub hT)

/-- A name that merging does not change is as it was. -/
theorem unmerged (hr : Refreshed t T h h₁) {c : Class} {m : Name}
    (hkeep : merge ((h.ns (.cls c)).lookup m) ((h.ns (.cls (t c))).lookup m) =
      (h.ns (.cls c)).lookup m) : (h₁.ns (.cls c)).lookup m = (h.ns (.cls c)).lookup m := by
  by_cases hmem : (c, m) ∈ T
  · rw [hr.inside c m hmem, hkeep]
  · exact hr.outside c m hmem

/-- It may be counted in. -/
theorem keep (hr : Refreshed t T h h₁) {c : Class} {k : Name}
    (hkeep : merge ((h₁.ns (.cls c)).lookup k) ((h.ns (.cls (t c))).lookup k) =
      (h₁.ns (.cls c)).lookup k) : Refreshed t (insert (c, k) T) h h₁ := by
  refine hr.widen (Set.subset_insert _ _) ?_
  intro c' m hmem hT
  cases hmem.resolve_right hT
  rw [← hr.outside c k hT]
  exact hkeep

/-- Merging makes no name. -/
theorem bound_of_bound (hr : Refreshed t T h h₁) {c : Class} {m : Name} {x : Val Class}
    (hm : (h₁.ns (.cls c)).lookup m = some x) : ∃ y, (h.ns (.cls c)).lookup m = some y := by
  cases hnone : (h.ns (.cls c)).lookup m with
  | some y => exact ⟨y, rfl⟩
  | none =>
    rw [hr.unmerged (by rw [hnone]; rfl), hnone] at hm
    cases hm

theorem flat (hr : Refreshed t T h h₁) (hflat : Flat h) : Flat h₁ := by
  intro c m c' hcls
  by_cases hmem : (c, m) ∈ T
  · rw [hr.inside c m hmem, merge_eq_cls] at hcls
    exact hflat c m c' hcls
  · rw [hr.outside c m hmem] at hcls
    exact hflat c m c' hcls

/-- Two heaps with the same namespaces. -/
theorem of_ns_eq (hr : Refreshed t T h h₁) (hns : h₂.ns = h₁.ns) : Refreshed t T h h₂ where
  oldMod := by rw [hns, hr.oldMod]
  newMod := by rw [hns, hr.newMod]
  inside := by rw [hns]; exact hr.inside
  outside := by rw [hns]; exact hr.outside

/-- `old_d[k] = v` of a method, where the newest version has the method `v`. -/
theorem bind (hr : Refreshed t T h h₁) {c : Class} {k : Name} {g : Nat}
    (hg : merge ((h.ns (.cls c)).lookup k) ((h.ns (.cls (t c))).lookup k) =
      some (.method g)) : Refreshed t (insert (c, k) T) h (h₁.bind (.cls c) k (.method g)) where
  oldMod := hr.oldMod
  newMod := hr.newMod
  inside := by
    intro c' m hmem
    rw [Heap.lookup_bind]
    split
    · rename_i heq
      obtain ⟨hc, rfl⟩ := heq
      cases hc
      rw [hg]
    · rename_i hne
      refine hr.inside c' m (hmem.resolve_left ?_)
      rintro heq
      cases heq
      exact hne ⟨rfl, rfl⟩
  outside := by
    intro c' m hmem
    rw [Heap.lookup_bind, if_neg, hr.outside c' m fun hT => hmem (.inr hT)]
    rintro ⟨hc, rfl⟩
    cases hc
    exact hmem (.inl rfl)

end Refreshed

/-! ### What the walks do to classes -/

section Walks

/-- The names that `items()` goes through. -/
theorem exists_entry_iff {β : Type} {d : AList fun _ : Name => β} {k : Name} :
    (∃ e ∈ d.entries, e.1 = k) ↔ k ∈ d :=
  List.mem_map.symm.trans AList.mem_keys.symm

variable {t : Class → Class} {h : Heap Class}

variable {T : Set (Class × Name)} {h₁ : Heap Class} {c : Class} {k : Name} {v : Val Class}

/-- One name of `copy_dict`. -/
theorem copyWalk_visit (hr : Refreshed t T h h₁) (ht : ∀ c, t (t c) = t c) (hflat : Flat h)
    (rec : Heap Class → Pair Class → Option (Heap Class))
    (hk : (h.ns (.cls c)).lookup k = some v) :
    ∃ h₂, copyWalk.visit rec (.cls c, .cls (t c)) h₁ ⟨k, v⟩ = some h₂ ∧
      Refreshed t (insert (c, k) T) h h₂ := by
  simp only [Walk.visit, copyWalk, hr.target ht]
  cases v with
  | cls c' => exact (hflat c k c' hk).elim
  | method f =>
    rcases hnew : (h.ns (.cls (t c))).lookup k with _ | ⟨_ | g | _ | _⟩
    case some.method => exact ⟨_, rfl, hr.bind (by rw [hk, hnew]; rfl)⟩
    all_goals
      refine ⟨h₁, rfl, hr.keep ?_⟩
      rw [hr.unmerged (by rw [hk, hnew]; rfl), hk, hnew]
      rfl
  | _ =>
    refine ⟨h₁, rfl, hr.keep ?_⟩
    rw [hr.unmerged (by rw [hk]; rfl), hk]
    rfl

/-- `copy_dict` merges all names of a class. -/
theorem copyDict_flat (ht : ∀ c, t (t c) = t c) (hflat : Flat h) (fuel : Nat) (c : Class) :
    ∃ h', copyDict (fuel + 1) h (.cls c) (.cls (t c)) = some h' ∧
      Refreshed t {p | p.1 = c} h h' := by
  rw [copyDict_eq_run, Walk.run]
  refine (foldlM_keys (fun e => (c, e.1)) (fun A h₁ => Refreshed t A h h₁) ?_
    (Refreshed.refl t h)).imp fun h' hrun => ⟨hrun.1, hrun.2.widen ?_ ?_⟩
  · rintro A h₁ ⟨k, v⟩ hmem hr
    exact copyWalk_visit hr ht hflat _ (AList.mem_lookup_iff.mpr hmem)
  · rintro p ⟨e, -, rfl⟩
    rfl
  · rintro c' m rfl hmem
    have hnone : (h.ns (.cls c')).lookup m = none := by
      refine AList.lookup_eq_none.mpr fun hm => hmem ?_
      obtain ⟨e, he, rfl⟩ := exists_entry_iff.mpr hm
      exact ⟨e, he, rfl⟩
    rw [hnone]
    rfl

/-- One name of `update_dict`, without a `__` in front. -/
theorem updateWalk_visit (hr : Refreshed t T h h₁) (hflat : Flat h)
    (rec : Heap Class × Option (WeakRefs Class) → Pair Class →
      Option (Heap Class × Option (WeakRefs Class)))
    (hk : (h.ns (.cls (t c))).lookup k = some v) (hplain : dunder k = false) :
    ∃ h₂, updateWalk.visit rec (.cls c, .cls (t c)) (h₁, none) ⟨k, v⟩ = some (h₂, none) ∧
      Refreshed t (insert (c, k) T) h h₂ := by
  simp only [Walk.visit, updateWalk, hplain, Bool.false_eq_true, if_false]
  cases v with
  | cls c' => exact (hflat (t c) k c' hk).elim
  | method g =>
    rcases hold : (h₁.ns (.cls c)).lookup k with _ | ⟨_ | f | _ | _⟩
    case some.method => exact ⟨_, rfl, hr.bind (by rw [← hr.merge_left, hold, hk]; rfl)⟩
    all_goals exact ⟨_, rfl, hr.keep (by rw [hold, hk]; rfl)⟩
  | dict d' =>
    rcases hold : (h₁.ns (.cls c)).lookup k with _ | ⟨_ | _ | d | _⟩
    case some.dict => exact ⟨_, rfl, (hr.keep (by rw [hold, hk]; rfl)).of_ns_eq rfl⟩
    all_goals exact ⟨_, rfl, hr.keep (by rw [hold, hk]; rfl)⟩
  | other v =>
    rcases hold : (h₁.ns (.cls c)).lookup k with _ | ⟨_ | _ | _ | _⟩
    all_goals exact ⟨_, rfl, hr.keep (by rw [hold, hk]; rfl)⟩

/-- The others are skipped. -/
theorem updateWalk_visit_dunder (rec : Heap Class × Option (WeakRefs Class) → Pair Class →
      Option (Heap Class × Option (WeakRefs Class))) (p : Pair Class)
    (s : Heap Class × Option (WeakRefs Class)) (hdunder : dunder k = true) :
    updateWalk.visit rec p s ⟨k, v⟩ = some s := by
  simp only [Walk.visit, updateWalk, hdunder, if_true]

/-- `update_dict` merges those that do not begin with `__`. -/
theorem updateDict_flat (t : Class → Class) (hflat : Flat h) (fuel : Nat) (c : Class) :
    ∃ h', updateDict (fuel + 1) h (.cls c) (.cls (t c)) none = some (h', none) ∧
      Refreshed t {p | p.1 = c ∧ dunder p.2 = false} h h' := by
  have hloop : ∃ s, updateDict (fuel + 1) h (.cls c) (.cls (t c)) none = some s ∧
      s.2 = none ∧ Refreshed t {p | p.1 = c ∧ dunder p.2 = false} h s.1 := by
    rw [updateDict_eq_run, Walk.run]
    refine (foldlM_keys (fun e => (c, e.1)) (fun A s => s.2 = none ∧
      Refreshed t (A ∩ {p | dunder p.2 = false}) h s.1) ?_ ⟨rfl, ?_⟩).imp
        fun s hrun => ⟨hrun.1, hrun.2.1, hrun.2.2.widen ?_ ?_⟩
    · rintro A ⟨h₁, -⟩ ⟨k, v⟩ hmem ⟨rfl, hr⟩
      cases hk : dunder k with
      | true =>
        refine ⟨_, updateWalk_visit_dunder _ _ _ hk, rfl, ?_⟩
        rwa [Set.insert_inter_of_notMem (by simp [hk])]
      | false =>
        obtain ⟨h₂, hrun, hr₂⟩ :=
          updateWalk_visit hr hflat (updateWalk.run fuel) (AList.mem_lookup_iff.mpr hmem) hk
        refine ⟨_, hrun, rfl, ?_⟩
        rwa [Set.insert_inter_of_mem (by simp [hk])]
    · rw [Set.empty_inter]
      exact Refreshed.refl t h
    · rintro p ⟨⟨e, -, rfl⟩, hplain⟩
      exact ⟨rfl, hplain⟩
    · rintro c' m ⟨rfl, hplain⟩ hmem
      have hnone : (h.ns (.cls (t c'))).lookup m = none := by
        refine AList.lookup_eq_none.mpr fun hm => hmem ⟨?_, hplain⟩
        obtain ⟨e, he, rfl⟩ := exists_entry_iff.mpr hm
        exact ⟨e, he, rfl⟩
      rw [hnone, merge_none]
  obtain ⟨⟨h', -⟩, hrun, rfl, hr⟩ := hloop
  exact ⟨h', hrun, hr⟩

/-- The module binds its names to classes that are called so. -/
def Named (d : Namespace Class) : Prop := ∀ k v, d.lookup k = some v → ∃ c, v = .cls c ∧ c.name = k

/-- The class that the module binds the name of `c` to. -/
def newest (h : Heap Class) (c : Class) : Class :=
  match (h.ns .newMod).lookup c.name with
  | some (.cls c') => c'
  | _ => c

theorem newest_eq {c c' : Class} (hc : (h.ns .newMod).lookup c.name = some (.cls c')) :
    newest h c = c' := by
  rw [newest, hc]

theorem newest_newest (hnamed : Named (h.ns .newMod)) (c : Class) :
    newest h (newest h c) = newest h c := by
  rcases hc : (h.ns .newMod).lookup c.name with _ | v
  · have hself : newest h c = c := by rw [newest, hc]
    rw [hself, hself]
  · obtain ⟨c', rfl, hname⟩ := hnamed _ v hc
    rw [newest_eq hc]
    exact newest_eq (hname ▸ hc)

/-- The pairs that `update_dict` merges when it has gone through the names of `A`. -/
def Updated (h : Heap Class) (A : Set Name) : Set (Class × Name) :=
  {p | p.1.name ∈ A ∧ dunder p.1.name = false ∧
    (h.ns .oldMod).lookup p.1.name = some (.cls p.1) ∧ dunder p.2 = false}

/-- A name under which no class is replaced. -/
theorem updated_insert_none {A : Set Name}
    (hk : dunder k = false → (h.ns .oldMod).lookup k = none) :
    Updated h (insert k A) = Updated h A := by
  ext ⟨c, m⟩
  constructor
  · rintro ⟨rfl | hA, hplain, hcur, hm⟩
    · rw [hk hplain] at hcur
      cases hcur
    · exact ⟨hA, hplain, hcur, hm⟩
  · rintro ⟨hA, hrest⟩
    exact ⟨.inr hA, hrest⟩

/-- A name under which `c` is. -/
theorem updated_insert_some {A : Set Name} (hplain : dunder c.name = false)
    (hcur : (h.ns .oldMod).lookup c.name = some (.cls c)) :
    Updated h (insert c.name A) = Updated h A ∪ {p | p.1 = c ∧ dunder p.2 = false} := by
  ext ⟨c₁, m⟩
  constructor
  · rintro ⟨hname | hA, hplain₁, hcur₁, hm⟩
    · rw [hname, hcur] at hcur₁
      cases hcur₁
      exact .inr ⟨rfl, hm⟩
    · exact .inl ⟨hA, hplain₁, hcur₁, hm⟩
  · rintro (⟨hA, hrest⟩ | ⟨rfl, hm⟩)
    · exact ⟨.inr hA, hrest⟩
    · exact ⟨.inl rfl, hplain, hcur, hm⟩

/-- The references that it has made then. -/
def References (h : Heap Class) (A : Set Name) (weak : WeakRefs Class) : Prop :=
  ∀ k c, weak.lookup k = some c ↔
    k ∈ A ∧ dunder k = false ∧ (h.ns .oldMod).lookup k = some (.cls c)

theorem References.insert_none {A : Set Name} {weak : WeakRefs Class}
    (hw : References h A weak) (hk : dunder k = false → (h.ns .oldMod).lookup k = none) :
    References h (insert k A) weak := by
  intro k' c
  rw [hw k' c]
  constructor
  · rintro ⟨hA, hrest⟩
    exact ⟨.inr hA, hrest⟩
  · rintro ⟨rfl | hA, hplain, hcur⟩
    · rw [hk hplain] at hcur
      cases hcur
    · exact ⟨hA, hplain, hcur⟩

/-- `weak_refs[k] = weakref.ref(o_val)`. -/
theorem References.insert_some {A : Set Name} {weak : WeakRefs Class}
    (hw : References h A weak) (hplain : dunder k = false)
    (hcur : (h.ns .oldMod).lookup k = some (.cls c)) :
    References h (insert k A) (weak.insert k c) := by
  intro k' c'
  rcases eq_or_ne k' k with rfl | hne
  · rw [AList.lookup_insert, hcur]
    constructor
    · rintro heq
      cases heq
      exact ⟨.inl rfl, hplain, rfl⟩
    · rintro ⟨-, -, heq⟩
      cases heq
      rfl
  · rw [AList.lookup_insert_ne hne, hw k' c', Set.mem_insert_iff, or_iff_right hne]

/-- `update_dict` of the module's dictionaries has gone through the names of `A`. -/
def Through (h : Heap Class) (A : Set Name) (s : Heap Class × Option (WeakRefs Class)) : Prop :=
  ∃ weak, s.2 = some weak ∧ Refreshed (newest h) (Updated h A) h s.1 ∧ References h A weak

theorem through_empty (h : Heap Class) : Through h ∅ (h, some ∅) := by
  refine ⟨∅, rfl, ?_, ?_⟩
  · have hnone : Updated h ∅ = ∅ := Set.eq_empty_of_forall_notMem fun _ hmem => hmem.1
    rw [hnone]
    exact Refreshed.refl _ h
  · intro k c
    rw [AList.lookup_empty]
    constructor
    · intro hnone
      cases hnone
    · rintro ⟨hmem, -⟩
      exact hmem.elim

theorem Through.insert_none {A : Set Name} {s : Heap Class × Option (WeakRefs Class)}
    (hs : Through h A s) (hk : dunder k = false → (h.ns .oldMod).lookup k = none) :
    Through h (insert k A) s := by
  obtain ⟨weak, hweak, hr, hw⟩ := hs
  refine ⟨weak, hweak, ?_, hw.insert_none hk⟩
  rwa [updated_insert_none hk]

/-- One name of the module. -/
theorem Through.visit (hold : Named (h.ns .oldMod)) (hnew : Named (h.ns .newMod)) (hflat : Flat h)
    (fuel : Nat) {A : Set Name} {s : Heap Class × Option (WeakRefs Class)} (hs : Through h A s)
    (hk : (h.ns .newMod).lookup k = some v) :
    ∃ s', updateWalk.visit (updateWalk.run (fuel + 1)) (.oldMod, .newMod) s ⟨k, v⟩ = some s' ∧
      Through h (insert k A) s' := by
  cases hplain : dunder k with
  | true =>
    refine ⟨s, updateWalk_visit_dunder _ _ _ hplain, hs.insert_none ?_⟩
    intro hplain'
    cases hplain.symm.trans hplain'
  | false =>
    obtain ⟨c', rfl, -⟩ := hnew k v hk
    cases hlookup : (h.ns .oldMod).lookup k with
    | none =>
      refine ⟨s, ?_, hs.insert_none fun _ => hlookup⟩
      obtain ⟨weak, -, hr, -⟩ := hs
      simp only [Walk.visit, updateWalk, hplain, hr.oldMod, hlookup, Bool.false_eq_true, if_false]
    | some x =>
      obtain ⟨c, rfl, rfl⟩ := hold k x hlookup
      obtain ⟨h₁, weak⟩ := s
      obtain ⟨weak, rfl, hr, hw⟩ := hs
      obtain ⟨h₂, hrun, hr₂⟩ := updateDict_flat (newest h) (hr.flat hflat) fuel c
      rw [newest_eq hk, updateDict_eq_run] at hrun
      have hmods : h₁.ns .oldMod = h.ns .oldMod := hr.oldMod
      refine ⟨(h₂, some (weak.insert c.name c)), ?_, weak.insert c.name c, rfl, ?_,
        hw.insert_some hplain hlookup⟩
      · have hrun : updateWalk.run (fuel + 1) (h₁, none) (.cls c, .cls c') = some (h₂, none) := hrun
        simp only [Walk.visit, updateWalk, hplain, hmods, hlookup, Bool.false_eq_true, if_false]
        exact congrArg (Option.map _) hrun
      · rw [updated_insert_some hplain hlookup]
        exact hr.trans hr₂ (newest_newest hnew)

/-- `update_dict` of the module's dictionaries merges the names of the classes that were
replaced, and references them; both only where no `__` is in front. -/
theorem updateDict_mods (hold : Named (h.ns .oldMod)) (hnew : Named (h.ns .newMod))
    (hflat : Flat h) (fuel : Nat) :
    ∃ h' weak, updateDict (fuel + 2) h .oldMod .newMod (some ∅) = some (h', some weak) ∧
      Refreshed (newest h) (Updated h {k | k ∈ h.ns .newMod}) h h' ∧
      References h {k | k ∈ h.ns .newMod} weak := by
  obtain ⟨⟨h', -⟩, hrun, weak, rfl, hr, hw⟩ :
      ∃ s, updateDict (fuel + 2) h .oldMod .newMod (some ∅) = some s ∧
        Through h {k | ∃ e ∈ (h.ns .newMod).entries, e.1 = k} s := by
    rw [updateDict_eq_run, Walk.run]
    refine foldlM_keys Sigma.fst (Through h) ?_ (through_empty h)
    rintro A s ⟨k, v⟩ hmem hs
    exact hs.visit hold hnew hflat fuel (AList.mem_lookup_iff.mpr hmem)
  simp only [exists_entry_iff] at hr hw
  exact ⟨h', weak, hrun, hr, hw⟩

/-! ### What the weak references reach -/

/-- The references are to classes under their own names, which the module still has. -/
def Held (h : Heap Class) (ref : WeakRefs Class) : Prop :=
  ∀ k c, ref.lookup k = some c → c.name = k ∧ ∃ v, (h.ns .newMod).lookup k = some v

/-- The pairs that `update_weak_ref` merges when it has gone through the names of `A`. -/
def Reached (dead : List Class) (ref : WeakRefs Class) (A : Set Name) : Set (Class × Name) :=
  {p | p.1.name ∈ A ∧ p.1 ∉ dead ∧ ref.lookup p.1.name = some p.1}

/-- The references that are left then. -/
def Left (dead : List Class) (ref : WeakRefs Class) (A : Set Name) (ref' : WeakRefs Class) : Prop :=
  ∀ k c, ref'.lookup k = some c ↔ ref.lookup k = some c ∧ (k ∈ A → c ∉ dead)

variable {dead : List Class} {ref ref' : WeakRefs Class} {A : Set Name}

theorem reached_insert_dead (hc : ref.lookup c.name = some c) (hdead : c ∈ dead) :
    Reached dead ref (insert c.name A) = Reached dead ref A := by
  ext ⟨c₁, m⟩
  constructor
  · rintro ⟨hname | hA, halive, hc₁⟩
    · rw [hname, hc] at hc₁
      cases hc₁
      exact (halive hdead).elim
    · exact ⟨hA, halive, hc₁⟩
  · rintro ⟨hA, hrest⟩
    exact ⟨.inr hA, hrest⟩

theorem reached_insert_alive (hc : ref.lookup c.name = some c) (halive : c ∉ dead) :
    Reached dead ref (insert c.name A) = Reached dead ref A ∪ {p | p.1 = c} := by
  ext ⟨c₁, m⟩
  constructor
  · rintro ⟨hname | hA, halive₁, hc₁⟩
    · rw [hname, hc] at hc₁
      cases hc₁
      exact .inr rfl
    · exact .inl ⟨hA, halive₁, hc₁⟩
  · rintro (⟨hA, hrest⟩ | rfl)
    · exact ⟨.inr hA, hrest⟩
    · exact ⟨.inl rfl, halive, hc⟩

theorem Left.erase (hl : Left dead ref A ref') (hk : ref.lookup k = some c) (hdead : c ∈ dead) :
    Left dead ref (insert k A) (ref'.erase k) := by
  intro k' c'
  rcases eq_or_ne k' k with rfl | hne
  · rw [AList.lookup_erase, hk]
    constructor
    · intro hnone
      cases hnone
    · rintro ⟨heq, halive⟩
      cases heq
      exact (halive (.inl rfl) hdead).elim
  · rw [AList.lookup_erase_ne hne, hl k' c', Set.mem_insert_iff, or_iff_right hne]

theorem Left.insert (hl : Left dead ref A ref') (hk : ref.lookup k = some c) (halive : c ∉ dead) :
    Left dead ref (insert k A) ref' := by
  intro k' c'
  rcases eq_or_ne k' k with rfl | hne
  · rw [hl k' c', hk]
    constructor
    · rintro ⟨heq, -⟩
      cases heq
      exact ⟨rfl, fun _ => halive⟩
    · rintro ⟨heq, halive'⟩
      exact ⟨heq, fun _ => halive' (.inl rfl)⟩
  · rw [hl k' c', Set.mem_insert_iff, or_iff_right hne]

/-- `update_weak_ref` has gone through the names of `A`. -/
structure Passed (h : Heap Class) (dead : List Class) (ref : WeakRefs Class) (A : Set Name)
    (s : Heap Class × WeakRefs Class) : Prop where
  heap : Refreshed (newest h) (Reached dead ref A) h s.1
  left : Left dead ref A s.2

theorem passed_empty (h : Heap Class) (dead : List Class) (ref : WeakRefs Class) :
    Passed h dead ref ∅ (h, ref) := by
  constructor
  · have hnone : Reached dead ref ∅ = ∅ := Set.eq_empty_of_forall_notMem fun _ hmem => hmem.1
    rw [hnone]
    exact Refreshed.refl _ h
  · intro k c
    exact ⟨fun hk => ⟨hk, fun hmem => hmem.elim⟩, And.left⟩

/-- `del ref_dict[k]`. -/
theorem Passed.erase (hs : Passed h dead ref A (h₁, ref')) (hc : ref.lookup c.name = some c)
    (hdead : c ∈ dead) : Passed h dead ref (insert c.name A) (h₁, ref'.erase c.name) := by
  refine ⟨?_, hs.left.erase hc hdead⟩
  rw [reached_insert_dead hc hdead]
  exact hs.heap

/-- `copy_dict(old_v.__dict__, new_v.__dict__)`. -/
theorem Passed.copy (hs : Passed h dead ref A (h₁, ref')) (hnew : Named (h.ns .newMod))
    (hflat : Flat h) (fuel : Nat) (hc : ref.lookup c.name = some c) (halive : c ∉ dead) :
    ∃ h₂, copyDict (fuel + 1) h₁ (.cls c) (.cls (newest h c)) = some h₂ ∧
      Passed h dead ref (insert c.name A) (h₂, ref') := by
  obtain ⟨h₂, hrun, hr⟩ := copyDict_flat (newest_newest hnew) (hs.heap.flat hflat) fuel c
  refine ⟨h₂, hrun, ?_, hs.left.insert hc halive⟩
  rw [reached_insert_alive hc halive]
  exact hs.heap.trans hr (newest_newest hnew)

/-- All names that the map has are all that matter. -/
theorem Passed.all {s : Heap Class × WeakRefs Class} (hs : Passed h dead ref {k | k ∈ ref} s) :
    Passed h dead ref Set.univ s := by
  have hmem : ∀ k c, ref.lookup k = some c → k ∈ ref := by
    intro k c hk
    exact AList.lookup_isSome.mp (Option.isSome_iff_exists.mpr ⟨c, hk⟩)
  constructor
  · refine hs.heap.widen (fun p hp => ⟨trivial, hp.2⟩) ?_
    rintro c m ⟨-, halive, hc⟩ hout
    exact (hout ⟨hmem _ _ hc, halive, hc⟩).elim
  · intro k c
    rw [hs.left k c]
    exact and_congr_right fun hk => imp_congr_left (iff_of_true (hmem k c hk) trivial)

/-- `update_weak_ref` merges all names of the classes that it reaches, and the assertion
holds. -/
theorem updateWeakRef_spec (hnew : Named (h.ns .newMod)) (hflat : Flat h) (href : Held h ref)
    (fuel : Nat) (dead : List Class) :
    ∃ h' ref', updateWeakRef (fuel + 1) dead h ref = .ok (h', ref') ∧
      Refreshed (newest h) (Reached dead ref Set.univ) h h' ∧ Left dead ref Set.univ ref' := by
  obtain ⟨⟨h', ref'⟩, hrun, hs⟩ : ∃ s, updateWeakRef (fuel + 1) dead h ref = .ok s ∧
      Passed h dead ref {k | ∃ e ∈ ref.entries, e.1 = k} s := by
    rw [updateWeakRef]
    refine foldlM_keys Sigma.fst (Passed h dead ref) ?_ (passed_empty h dead ref)
    rintro A ⟨h₁, ref₁⟩ ⟨k, c⟩ hmem hs
    have hk : ref.lookup k = some c := AList.mem_lookup_iff.mpr hmem
    obtain ⟨rfl, v, hv⟩ := href k c hk
    obtain ⟨c', rfl, -⟩ := hnew c.name v hv
    have hv₁ : (h₁.ns .newMod).lookup c.name = some (.cls c') := by
      rw [← hv]
      exact congrArg _ hs.heap.newMod
    simp only [hv₁]
    split
    · rename_i hdead
      exact ⟨_, rfl, hs.erase hk hdead⟩
    · rename_i halive
      obtain ⟨h₂, hcopy, hs₂⟩ := hs.copy hnew hflat fuel hk halive
      rw [newest_eq hv] at hcopy
      simp only [hcopy]
      exact ⟨_, rfl, hs₂⟩
  simp only [exists_entry_iff] at hs
  exact ⟨h', ref', hrun, hs.all.heap, hs.all.left⟩

theorem Refreshed.newest_eq {T : Set (Class × Name)} {h₁ : Heap Class}
    (hr : Refreshed t T h h₁) : newest h₁ = newest h := by
  funext c
  rw [newest, newest, hr.newMod]

/-- The pairs that the loop over `old_refs` merges. -/
def Recalled (dead : List Class) (refs : List (WeakRefs Class)) : Set (Class × Name) :=
  {p | p.1 ∉ dead ∧ ∃ ref ∈ refs, ref.lookup p.1.name = some p.1}

theorem recalled_nil : Recalled dead [] = ∅ := by
  refine Set.eq_empty_of_forall_notMem ?_
  rintro p ⟨-, ref, hmem, -⟩
  cases hmem

theorem recalled_cons (refs : List (WeakRefs Class)) :
    Recalled dead (ref :: refs) = Reached dead ref Set.univ ∪ Recalled dead refs := by
  ext p
  constructor
  · rintro ⟨halive, hp⟩
    rcases (List.exists_mem_cons_iff _ _ _).mp hp with hp | hp
    · exact .inl ⟨trivial, halive, hp⟩
    · exact .inr ⟨halive, hp⟩
  · rintro (⟨-, halive, hp⟩ | ⟨halive, hp⟩)
    · exact ⟨halive, (List.exists_mem_cons_iff _ _ _).mpr (.inl hp)⟩
    · exact ⟨halive, (List.exists_mem_cons_iff _ _ _).mpr (.inr hp)⟩

/-- The loop over `old_refs`. -/
theorem updateWeakRefs_spec (hnew : Named (h.ns .newMod)) (hflat : Flat h)
    {refs : List (WeakRefs Class)} (hrefs : ∀ ref ∈ refs, Held h ref) (fuel : Nat)
    (dead : List Class) :
    ∃ h' refs', updateWeakRefs (fuel + 1) dead h refs = .ok (h', refs') ∧
      Refreshed (newest h) (Recalled dead refs) h h' ∧
      ∀ k c, (∃ ref ∈ refs', ref.lookup k = some c) ↔
        (∃ ref ∈ refs, ref.lookup k = some c) ∧ c ∉ dead := by
  induction refs generalizing h with
  | nil =>
    refine ⟨h, [], rfl, ?_, by simp⟩
    rw [recalled_nil]
    exact Refreshed.refl _ h
  | cons ref refs ih =>
    obtain ⟨h₁, ref', hrun, hr, hl⟩ :=
      updateWeakRef_spec hnew hflat (hrefs ref List.mem_cons_self) fuel dead
    obtain ⟨h', refs', hrun', hr', hl'⟩ := ih (h := h₁) (hr.newMod ▸ hnew) (hr.flat hflat)
      fun ref hmem k c hk => hr.newMod ▸ hrefs ref (List.mem_cons_of_mem _ hmem) k c hk
    rw [hr.newest_eq] at hr'
    refine ⟨h', ref' :: refs', ?_, ?_, ?_⟩
    · rw [updateWeakRefs, hrun]
      simp only [ok_bind, hrun']
    · rw [recalled_cons]
      exact hr.trans hr' (newest_newest hnew)
    · intro k c
      rw [List.exists_mem_cons_iff, List.exists_mem_cons_iff, hl k c, hl' k c]
      simp only [Set.mem_univ, true_implies]
      exact or_and_right.symm

end Walks

end MixServer.Script.Reload
