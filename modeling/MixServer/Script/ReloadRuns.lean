import MixServer.Script.ReloadMerge

/-!
Runs of `reload_mod` (`script/reload_mgr.py`) on a module that defines old-style classes.

The class that a reload replaces is updated by `update_dict`. Those that earlier reloads
replaced are found again through weak references, and `update_weak_ref` updates them by
`copy_dict`. Only `update_dict` leaves out the names that begin with `__`, so the versions of a
class that are still in use can differ in `__init__`: `alike_init`.

`reloadMod_spec` adds up what one reload does. `reloads_alike_iff` is the exact condition:
after every reload all versions agree with the newest iff every reload is `Updatable`.
-/

namespace MixServer.Script.Reload

open Lib

/-! ### The module -/

/-- The body of a class statement: methods, dictionaries and other values. -/
structure Body where
  names : Namespace Class
  flat : ∀ e ∈ names.entries, e.2.isClass = false

/-- What executing the module's file does: it makes the classes anew, and leaves the
dictionaries that names are bound to with some contents. -/
structure Version where
  classes : AList fun _ : Name => Body
  dicts : Nat → Namespace Class := fun _ => ∅

/-- The interpreter, as far as the module goes. `refs` is `old_mods[mod_name]`, `count` the
number of times that the file has been executed, and `dead` the classes that are gone. -/
structure Interp where
  heap : Heap Class
  refs : List (WeakRefs Class)
  dead : List Class
  count : Nat

/-- Executes the file. Names that it does not define stay. -/
def execute (v : Version) (s : Interp) : Interp where
  heap :=
    { ns := fun
        | .oldMod => s.heap.ns .oldMod
        | .newMod =>
            v.classes.keys.foldl (fun d k => d.insert k (.cls ⟨s.count, k⟩)) (s.heap.ns .newMod)
        | .cls c =>
            if c.version = s.count then
              match v.classes.lookup c.name with
              | some body => body.names
              | none => ∅
            else
              s.heap.ns (.cls c)
      dicts := v.dicts }
  refs := s.refs
  dead := s.dead
  count := s.count + 1

/-- The module as first imported. -/
def start (v : Version) : Interp :=
  execute v
    { heap := { ns := fun _ => ∅, dicts := fun _ => ∅ }, refs := [], dead := [], count := 0 }

/-- `old_mod_dict = dict(old_module.__dict__)`. -/
def Interp.keep (s : Interp) : Interp :=
  { s with heap := { s.heap with ns := Function.update s.heap.ns .oldMod (s.heap.ns .newMod) } }

/-! ### The functions -/

/-- `reload_mod`. What is left without a reference is popped from `old_refs`, and the classes
that this reload replaced are appended. -/
def reloadMod (fuel : Nat) (v : Version) (s : Interp) : Except Failure Interp :=
  let s := execute v s.keep
  match copyObj fuel s.heap (.dict .oldMod) (.dict .newMod) (some ∅) with
  | none => .error .recursion
  | some (h, weak) =>
      updateWeakRefs fuel s.dead h s.refs >>= fun (h, refs) =>
      .ok { s with heap := h, refs := refs.filter (·.entries ≠ []) ++ [weak.getD ∅] }

/-- Classes that nothing refers to any more are gone. -/
def Interp.die (cs : List Class) (s : Interp) : Interp := { s with dead := cs ++ s.dead }

/-- What happens to the module: a reload, by whose return some classes have died, or the death
of some classes at another time. -/
inductive Event where
  | reload (v : Version) (dying : List Class)
  | collect (cs : List Class)

/-- One event, with fuel for the walks. -/
def step (fuel : Nat) (s : Interp) : Event → Except Failure Interp
  | .reload v dying => reloadMod fuel v s >>= fun s => .ok (s.die dying)
  | .collect cs => .ok (s.die cs)

/-! ### What is promised, and when it holds -/

/-- The class is in a map of weak references under its name. -/
def Interp.Remembered (s : Interp) (c : Class) : Prop :=
  ∃ ref ∈ s.refs, ref.lookup c.name = some c

/-- Every version of a class that is alive binds each name that is a method in it and in the
newest version to the function of the newest. -/
def Alike (s : Interp) : Prop :=
  ∀ k newest, (s.heap.ns .newMod).lookup k = some (.cls newest) →
    ∀ c, c.name = k → c ∉ s.dead →
      ∀ m f g, (s.heap.ns (.cls c)).lookup m = some (.method f) →
        (s.heap.ns (.cls newest)).lookup m = some (.method g) → f = g

/-- The versions that survive the reload of a class bind the methods they share with it to the
same functions already, or can be updated: the name of the class does not begin with `__`, and
neither does that of the method unless the version is remembered. -/
def Updatable (s : Interp) : Event → Prop
  | .reload v dying =>
      ∀ k body, v.classes.lookup k = some body →
        ∀ c, c.name = k → c ∉ s.dead → c ∉ dying →
          ∀ m f g, (s.heap.ns (.cls c)).lookup m = some (.method f) →
            body.names.lookup m = some (.method g) →
              f = g ∨ dunder k = false ∧ (dunder m = false ∨ s.Remembered c)
  | .collect _ => True

/-! ### One reload -/

theorem lookup_defined (n : Nat) (ks : List Name) (d : Namespace Class) (k : Name) :
    (ks.foldl (fun d k => d.insert k (.cls ⟨n, k⟩)) d).lookup k =
      if k ∈ ks then some (.cls ⟨n, k⟩) else d.lookup k := by
  induction ks generalizing d with
  | nil => simp
  | cons k' ks ih =>
    rw [List.foldl_cons, ih]
    rcases eq_or_ne k k' with rfl | hne
    · simp
    · rw [AList.lookup_insert_ne hne]
      simp [hne]

section Execute

variable {v : Version} {s : Interp}

theorem execute_newMod (k : Name) : ((execute v s).heap.ns .newMod).lookup k =
    if k ∈ v.classes then some (.cls ⟨s.count, k⟩) else (s.heap.ns .newMod).lookup k :=
  (lookup_defined s.count v.classes.keys (s.heap.ns .newMod) k).trans
    (if_congr AList.mem_keys.symm rfl rfl)

/-- A class of an earlier version stays as it is. -/
theorem execute_old {c : Class} (hc : c.version ≠ s.count) :
    (execute v s).heap.ns (.cls c) = s.heap.ns (.cls c) := if_neg hc

theorem execute_new {c : Class} (hc : c.version = s.count) {body : Body}
    (hbody : v.classes.lookup c.name = some body) :
    (execute v s).heap.ns (.cls c) = body.names := by
  simp [execute, hc, hbody]

/-- What a class of the new version binds comes from its class statement. -/
theorem execute_defined {c : Class} (hc : c.version = s.count) {m : Name} {x : Val Class}
    (hm : ((execute v s).heap.ns (.cls c)).lookup m = some x) :
    ∃ body, v.classes.lookup c.name = some body ∧ body.names.lookup m = some x := by
  cases hbody : v.classes.lookup c.name with
  | none =>
    simp [execute, hc, hbody] at hm
  | some body =>
    rw [execute_new hc hbody] at hm
    exact ⟨body, rfl, hm⟩

theorem Body.not_cls (body : Body) (m : Name) (c : Class) :
    body.names.lookup m ≠ some (.cls c) := by
  intro hm
  have := body.flat _ (AList.mem_lookup_iff.mp hm)
  cases this

end Execute

/-- What holds of the interpreter between the events. -/
structure Inv (s : Interp) : Prop where
  /-- The names of the module are bound to classes of the versions so far. -/
  named : ∀ k v, (s.heap.ns .newMod).lookup k = some v → ∃ i, i < s.count ∧ v = .cls ⟨i, k⟩
  flat : Flat s.heap
  /-- Only the classes of the versions so far have a namespace. -/
  made : ∀ c m v, (s.heap.ns (.cls c)).lookup m = some v → c.version < s.count
  /-- References are under names without a `__` in front. -/
  held : ∀ ref ∈ s.refs, ∀ k c, ref.lookup k = some c →
    c.name = k ∧ dunder k = false ∧ ∃ v, (s.heap.ns .newMod).lookup k = some v
  /-- The versions that are alive are the newest, or remembered. -/
  remembered : ∀ c m v, (s.heap.ns (.cls c)).lookup m = some v → c ∉ s.dead →
    dunder c.name = false → (s.heap.ns .newMod).lookup c.name = some (.cls c) ∨ s.Remembered c

/-- The pairs that a reload merges. -/
def Touched (s : Interp) : Set (Class × Name) :=
  {p | (dunder p.1.name = false ∧ (s.heap.ns .newMod).lookup p.1.name = some (.cls p.1) ∧
      dunder p.2 = false) ∨ (p.1 ∉ s.dead ∧ s.Remembered p.1)}

/-- What one reload does: it merges the names of `Touched` with those of the newest classes,
keeps the references to what is alive, and adds those to what was the newest before. -/
structure Reloaded (v : Version) (s s' : Interp) : Prop where
  count : s'.count = s.count + 1
  dead : s'.dead = s.dead
  heap : Refreshed (newest (execute v s.keep).heap) (Touched s) (execute v s.keep).heap s'.heap
  refs : ∀ k c, (∃ ref ∈ s'.refs, ref.lookup k = some c) ↔
    ((∃ ref ∈ s.refs, ref.lookup k = some c) ∧ c ∉ s.dead) ∨
      (dunder k = false ∧ (s.heap.ns .newMod).lookup k = some (.cls c))

section Reload

variable {v : Version} {s s' : Interp}

/-- The module after the new version has been executed. -/
theorem execute_keep_newMod (k : Name) : ((execute v s.keep).heap.ns .newMod).lookup k =
    if k ∈ v.classes then some (.cls ⟨s.count, k⟩) else (s.heap.ns .newMod).lookup k :=
  execute_newMod k

theorem execute_keep_old {c : Class} (hc : c.version ≠ s.count) :
    (execute v s.keep).heap.ns (.cls c) = s.heap.ns (.cls c) := execute_old (s := s.keep) hc

theorem mem_of_lookup {β : Type} {d : AList fun _ : Name => β} {k : Name} {x : β}
    (hk : d.lookup k = some x) : k ∈ d :=
  AList.lookup_isSome.mp (Option.isSome_iff_exists.mpr ⟨x, hk⟩)

/-- No name of the module is lost. -/
theorem execute_keep_bound {k : Name} {x : Val Class}
    (hk : (s.heap.ns .newMod).lookup k = some x) :
    ∃ y, ((execute v s.keep).heap.ns .newMod).lookup k = some y := by
  rw [execute_keep_newMod]
  split
  · exact ⟨_, rfl⟩
  · exact ⟨x, hk⟩

theorem Inv.named_execute (hinv : Inv s) (v : Version) :
    Named ((execute v s.keep).heap.ns .newMod) := by
  intro k x hk
  rw [execute_keep_newMod] at hk
  split at hk
  · cases hk
    exact ⟨_, rfl, rfl⟩
  · obtain ⟨i, -, rfl⟩ := hinv.named k x hk
    exact ⟨_, rfl, rfl⟩

theorem Inv.flat_execute (hinv : Inv s) (v : Version) : Flat (execute v s.keep).heap := by
  intro c m c' hm
  by_cases hc : c.version = s.count
  · obtain ⟨body, -, hm⟩ := execute_defined (s := s.keep) hc hm
    exact body.not_cls m c' hm
  · rw [execute_keep_old hc] at hm
    exact hinv.flat c m c' hm

/-- What both loops merge. -/
theorem touched_eq (s : Interp) (v : Version) :
    Updated (execute v s.keep).heap {k | k ∈ (execute v s.keep).heap.ns .newMod} ∪
      Recalled s.dead s.refs = Touched s := by
  ext p
  refine or_congr_left ?_
  constructor
  · rintro ⟨-, hrest⟩
    exact hrest
  · rintro ⟨hplain, hc, hm⟩
    obtain ⟨y, hy⟩ := execute_keep_bound (v := v) hc
    exact ⟨mem_of_lookup hy, hplain, hc, hm⟩

/-- Nothing is lost by popping the empty maps. -/
theorem exists_popped_iff {refs : List (WeakRefs Class)} {weak : WeakRefs Class} {k : Name}
    {c : Class} :
    (∃ ref ∈ refs.filter (·.entries ≠ []) ++ [weak], ref.lookup k = some c) ↔
      (∃ ref ∈ refs, ref.lookup k = some c) ∨ weak.lookup k = some c := by
  constructor
  · rintro ⟨ref, hmem, hk⟩
    rcases List.mem_append.mp hmem with hmem | hmem
    · exact .inl ⟨ref, List.mem_of_mem_filter hmem, hk⟩
    · rw [List.mem_singleton.mp hmem] at hk
      exact .inr hk
  · rintro (⟨ref, hmem, hk⟩ | hk)
    · refine ⟨ref, List.mem_append_left _ (List.mem_filter.mpr ⟨hmem, ?_⟩), hk⟩
      exact decide_eq_true (List.ne_nil_of_mem (AList.mem_lookup_iff.mp hk))
    · exact ⟨weak, List.mem_append_right _ List.mem_cons_self, hk⟩

/-- Every reload returns, and does what `Reloaded` says. -/
theorem reloadMod_spec (hinv : Inv s) (fuel : Nat) (v : Version) :
    ∃ s', reloadMod (fuel + 2) v s = .ok s' ∧ Reloaded v s s' := by
  have hnew := hinv.named_execute v
  have hflat := hinv.flat_execute v
  have hold : Named ((execute v s.keep).heap.ns .oldMod) := by
    intro k x hk
    obtain ⟨i, -, rfl⟩ := hinv.named k x hk
    exact ⟨_, rfl, rfl⟩
  obtain ⟨h₁, weak, hrun, hr, hweak⟩ := updateDict_mods hold hnew hflat fuel
  have hrefs : ∀ ref ∈ s.refs, Held h₁ ref := by
    intro ref hmem k c hk
    obtain ⟨hname, -, x, hx⟩ := hinv.held ref hmem k c hk
    rw [hr.newMod]
    exact ⟨hname, execute_keep_bound hx⟩
  obtain ⟨h', refs', hrun', hr', hrefs'⟩ :=
    updateWeakRefs_spec (hr.newMod ▸ hnew) (hr.flat hflat) hrefs (fuel + 1) s.dead
  rw [hr.newest_eq] at hr'
  refine ⟨{ heap := h', refs := refs'.filter (·.entries ≠ []) ++ [weak], dead := s.dead,
            count := s.count + 1 }, ?_, rfl, rfl, ?_, ?_⟩
  · have hloop : updateWeakRefs (fuel + 2) (execute v s.keep).dead h₁ (execute v s.keep).refs =
        .ok (h', refs') := hrun'
    simp only [reloadMod, copyObj, hrun, hloop, ok_bind]
    rfl
  · rw [← touched_eq s v]
    exact hr.trans hr' (newest_newest hnew)
  · intro k c
    rw [exists_popped_iff, hrefs' k c, hweak k c]
    refine or_congr_right ?_
    constructor
    · rintro ⟨-, hrest⟩
      exact hrest
    · rintro ⟨hplain, hc⟩
      obtain ⟨y, hy⟩ := execute_keep_bound (v := v) hc
      exact ⟨mem_of_lookup hy, hplain, hc⟩

namespace Reloaded

variable (hrel : Reloaded v s s')
include hrel

/-- The classes of the new version are the newest. -/
theorem newMod (k : Name) : (s'.heap.ns .newMod).lookup k =
    if k ∈ v.classes then some (.cls ⟨s.count, k⟩) else (s.heap.ns .newMod).lookup k := by
  rw [hrel.heap.newMod, execute_keep_newMod]

theorem remembered_iff (c : Class) : s'.Remembered c ↔ (s.Remembered c ∧ c ∉ s.dead) ∨
    (dunder c.name = false ∧ (s.heap.ns .newMod).lookup c.name = some (.cls c)) :=
  hrel.refs c.name c

theorem inv (hinv : Inv s) : Inv s' where
  named := by
    intro k x hk
    rw [hrel.newMod] at hk
    rw [hrel.count]
    split at hk
    · cases hk
      exact ⟨s.count, Nat.lt_succ_self _, rfl⟩
    · obtain ⟨i, hi, rfl⟩ := hinv.named k x hk
      exact ⟨i, Nat.lt_succ_of_lt hi, rfl⟩
  flat := hrel.heap.flat (hinv.flat_execute v)
  made := by
    intro c m x hm
    rw [hrel.count]
    by_cases hc : c.version = s.count
    · rw [hc]
      exact Nat.lt_succ_self _
    · obtain ⟨y, hy⟩ := hrel.heap.bound_of_bound hm
      rw [execute_keep_old hc] at hy
      exact Nat.lt_succ_of_lt (hinv.made c m y hy)
  held := by
    intro ref hmem k c hk
    have hbound : ∀ x, (s.heap.ns .newMod).lookup k = some x →
        ∃ y, (s'.heap.ns .newMod).lookup k = some y := by
      intro x hx
      rw [hrel.heap.newMod]
      exact execute_keep_bound hx
    rcases (hrel.refs k c).mp ⟨ref, hmem, hk⟩ with ⟨⟨ref₀, hmem₀, hk₀⟩, -⟩ | ⟨hplain, hc⟩
    · obtain ⟨hname, hplain, x, hx⟩ := hinv.held ref₀ hmem₀ k c hk₀
      exact ⟨hname, hplain, hbound x hx⟩
    · obtain ⟨i, -, heq⟩ := hinv.named k _ hc
      cases heq
      exact ⟨rfl, hplain, hbound _ hc⟩
  remembered := by
    intro c m x hm halive hplain
    rw [hrel.dead] at halive
    obtain ⟨y, hy⟩ := hrel.heap.bound_of_bound hm
    by_cases hc : c.version = s.count
    · obtain ⟨body, hbody, -⟩ := execute_defined (s := s.keep) hc hy
      refine .inl ?_
      rw [hrel.newMod, if_pos (mem_of_lookup hbody),
        ← hc]
    · rw [execute_keep_old hc] at hy
      refine .inr ((hrel.remembered_iff c).mpr ?_)
      rcases hinv.remembered c m y hy halive hplain with hcur | hrem
      · exact .inr ⟨hplain, hcur⟩
      · exact .inl ⟨hrem, halive⟩

end Reloaded

theorem Inv.die (hinv : Inv s) (cs : List Class) : Inv (s.die cs) where
  named := hinv.named
  flat := hinv.flat
  made := hinv.made
  held := hinv.held
  remembered := fun c m x hm halive =>
    hinv.remembered c m x hm fun hmem => halive (List.mem_append_right cs hmem)

/-- The first version makes all there is. -/
theorem start_defined {c : Class} {m : Name} {x : Val Class}
    (hm : ((start v).heap.ns (.cls c)).lookup m = some x) :
    c.version = 0 ∧ ∃ body, v.classes.lookup c.name = some body ∧ body.names.lookup m = some x := by
  by_cases hc : c.version = 0
  · exact ⟨hc, execute_defined hc hm⟩
  · rw [start, execute_old hc] at hm
    cases hm

theorem inv_start (v : Version) : Inv (start v) where
  named := by
    intro k x hk
    rw [start, execute_newMod] at hk
    split at hk
    · cases hk
      exact ⟨0, Nat.zero_lt_one, rfl⟩
    · cases hk
  flat := by
    intro c m c' hm
    obtain ⟨-, body, -, hm⟩ := start_defined hm
    exact body.not_cls m c' hm
  made := by
    intro c m x hm
    rw [(start_defined hm).1]
    exact Nat.zero_lt_one
  held := by
    intro ref hmem
    cases hmem
  remembered := by
    intro c m x hm _ _
    obtain ⟨hc, body, hbody, -⟩ := start_defined hm
    refine .inl ?_
    rw [start, execute_newMod, if_pos (mem_of_lookup hbody), ← hc]

/-! ### When all versions are alike -/

theorem Alike.die (halike : Alike s) (cs : List Class) : Alike (s.die cs) :=
  fun k newest hk c hname halive =>
    halike k newest hk c hname fun hmem => halive (List.mem_append_right cs hmem)

/-- Of the names of a class that is alive, those are merged that can be. -/
theorem Inv.mem_touched_iff (hinv : Inv s) {c : Class} {m : Name} {x : Val Class}
    (hm : (s.heap.ns (.cls c)).lookup m = some x) (halive : c ∉ s.dead) :
    (c, m) ∈ Touched s ↔ dunder c.name = false ∧ (dunder m = false ∨ s.Remembered c) := by
  constructor
  · rintro (⟨hplain, -, hm⟩ | ⟨-, hrem⟩)
    · exact ⟨hplain, .inl hm⟩
    · obtain ⟨ref, hmem, hc⟩ := hrem
      exact ⟨(hinv.held ref hmem _ _ hc).2.1, .inr ⟨ref, hmem, hc⟩⟩
  · rintro ⟨hplain, hm' | hrem⟩
    · rcases hinv.remembered c m x hm halive hplain with hcur | hrem
      · exact .inl ⟨hplain, hcur, hm'⟩
      · exact .inr ⟨halive, hrem⟩
    · exact .inr ⟨halive, hrem⟩

/-- The newest class of a name after a reload, as the new version's file has left it. -/
theorem Reloaded.lookup_newest (hrel : Reloaded v s s') (hinv : Inv s) {c newest' : Class}
    (hc : (s'.heap.ns .newMod).lookup c.name = some (.cls newest')) (m : Name) :
    newest (execute v s.keep).heap c = newest' ∧ (s'.heap.ns (.cls newest')).lookup m =
      ((execute v s.keep).heap.ns (.cls newest')).lookup m := by
  rw [hrel.heap.newMod] at hc
  have heq := newest_eq hc
  have htarget := hrel.heap.target (newest_newest (hinv.named_execute v)) c m
  rw [heq] at htarget
  exact ⟨heq, htarget⟩

/-- What survives a reload alike was updatable. -/
theorem Reloaded.updatable (hrel : Reloaded v s s') (hinv : Inv s) {dying : List Class}
    (h : Alike (s'.die dying)) : Updatable s (.reload v dying) := by
  rintro k body hbody c rfl halive hsurvives m f g hf hg
  by_cases hT : (c, m) ∈ Touched s
  · exact .inr ((hinv.mem_touched_iff hf halive).mp hT)
  · have hk : (s'.heap.ns .newMod).lookup c.name = some (.cls ⟨s.count, c.name⟩) := by
      rw [hrel.newMod, if_pos (mem_of_lookup hbody)]
    have hold : c.version ≠ s.count := (hinv.made c m _ hf).ne
    refine .inl (h c.name _ hk c rfl ?_ m f g ?_ ?_)
    · rw [Interp.die, hrel.dead, List.mem_append]
      exact not_or.mpr ⟨hsurvives, halive⟩
    · rw [← hf, ← execute_keep_old hold]
      exact hrel.heap.outside c m hT
    · rw [← hg, ← execute_new (s := s.keep) (c := ⟨s.count, c.name⟩) rfl hbody]
      exact (hrel.lookup_newest hinv hk m).2

/-- A method that the reload does not merge, in a class that survives it: it was the newest
one's already. -/
theorem Updatable.eq_of_untouched {dying : List Class} (h : Updatable s (.reload v dying))
    (hinv : Inv s) (halike : Alike s) {c cur : Class} {m : Name} {f g : Nat} (halive : c ∉ s.dead)
    (hsurvives : c ∉ dying) (hT : (c, m) ∉ Touched s)
    (hk : ((execute v s.keep).heap.ns .newMod).lookup c.name = some (.cls cur))
    (hf : ((execute v s.keep).heap.ns (.cls c)).lookup m = some (.method f))
    (hg : ((execute v s.keep).heap.ns (.cls cur)).lookup m = some (.method g)) : f = g := by
  rw [execute_keep_newMod] at hk
  by_cases hc : c.version = s.count
  · -- the class is itself of the new version
    obtain ⟨body, hbody, -⟩ := execute_defined (s := s.keep) hc hf
    rw [if_pos (mem_of_lookup hbody), ← hc] at hk
    cases hk
    cases hf.symm.trans hg
    rfl
  · rw [execute_keep_old hc] at hf
    split at hk
    · cases hk
      obtain ⟨body, hbody, hg⟩ := execute_defined (s := s.keep) rfl hg
      rcases h c.name body hbody c rfl halive hsurvives m f g hf hg with heq | hupd
      · exact heq
      · exact (hT ((hinv.mem_touched_iff hf halive).mpr hupd)).elim
    · -- the name is not defined anew
      obtain ⟨i, hi, heq⟩ := hinv.named _ _ hk
      cases heq
      rw [execute_keep_old hi.ne] at hg
      exact halike c.name _ hk c rfl halive m f g hf hg

/-- One reload keeps the versions that survive it alike iff they can be updated. -/
theorem Reloaded.alike_iff (hrel : Reloaded v s s') (hinv : Inv s) (halike : Alike s)
    (dying : List Class) : Alike (s'.die dying) ↔ Updatable s (.reload v dying) := by
  refine ⟨hrel.updatable hinv, ?_⟩
  rintro h k cur hk c rfl halive m f g hf hg
  rw [Interp.die, hrel.dead, List.mem_append] at halive
  obtain ⟨hsurvives, halive⟩ := not_or.mp halive
  obtain ⟨hnewest, hcur⟩ := hrel.lookup_newest hinv hk m
  have hg : ((execute v s.keep).heap.ns (.cls cur)).lookup m = some (.method g) := by
    rw [← hcur]
    exact hg
  by_cases hT : (c, m) ∈ Touched s
  · have hmerged := hrel.heap.inside c m hT
    rw [hnewest, hg] at hmerged
    exact merge_eq_method (hmerged.symm.trans hf)
  · refine h.eq_of_untouched hinv halike halive hsurvives hT ?_ ?_ hg
    · rw [← hrel.heap.newMod]
      exact hk
    · rw [← hrel.heap.outside c m hT]
      exact hf

/-! ### Runs -/

/-- One event keeps the invariant, and the versions alike if it is `Updatable`. -/
theorem step_spec (hinv : Inv s) (halike : Alike s) (fuel : Nat) (e : Event) :
    ∃ s', step (fuel + 2) s e = .ok s' ∧ Inv s' ∧ (Alike s' ↔ Updatable s e) := by
  cases e with
  | reload v dying =>
    obtain ⟨s', hrun, hrel⟩ := reloadMod_spec hinv fuel v
    refine ⟨s'.die dying, ?_, (hrel.inv hinv).die dying, hrel.alike_iff hinv halike dying⟩
    rw [step, hrun, ok_bind]
  | collect cs => exact ⟨s.die cs, rfl, hinv.die cs, iff_of_true (halike.die cs) trivial⟩

theorem alike_start (v : Version) : Alike (start v) := by
  intro k cur hk c hname _ m f g hf hg
  rw [start, execute_newMod] at hk
  split at hk
  · cases hk
    have hc : c = ⟨0, k⟩ := by rw [← hname, ← (start_defined hf).1]
    rw [hc] at hf
    cases hf.symm.trans hg
    rfl
  · cases hk

/-- After every reload of a run all live versions of the classes agree with the newest, and no
reload fails, iff every reload of the run is updatable. -/
theorem reloads_alike_iff (fuel : Nat) (v : Version) (es : List Event) :
    (∀ pre, pre <+: es →
      Ensures (exec (step (fuel + 2)) (start v) pre) Alike fun _ => False) ↔
      Every (step (fuel + 2)) Updatable (start v) es := by
  refine prefixes_iff_every (G := fun _ => Alike) (I := fun _ s => Inv s ∧ Alike s)
    ?_ ?_ (fun _ _ => And.right) [] ⟨inv_start v, alike_start v⟩
  · rintro - s e ⟨hinv, halike⟩ hC
    obtain ⟨s', hrun, hinv', hiff⟩ := step_spec hinv halike fuel e
    rw [hrun]
    exact ⟨hinv', hiff.mpr hC⟩
  · rintro - s e ⟨hinv, halike⟩ hC hgood
    obtain ⟨s', hrun, -, hiff⟩ := step_spec hinv halike fuel e
    rw [hrun] at hgood
    exact hC (hiff.mp hgood)

end Reload

/-- Versions that agree with the newest agree with each other. -/
theorem Alike.agree {s : Interp} (halike : Alike s) {k m : Name} {newest c c' : Class}
    {f f' g : Nat} (hk : (s.heap.ns .newMod).lookup k = some (.cls newest))
    (hg : (s.heap.ns (.cls newest)).lookup m = some (.method g))
    (hc : c.name = k ∧ c ∉ s.dead) (hc' : c'.name = k ∧ c' ∉ s.dead)
    (hf : (s.heap.ns (.cls c)).lookup m = some (.method f))
    (hf' : (s.heap.ns (.cls c')).lookup m = some (.method f')) : f = f' := by
  rw [halike k newest hk c hc.1 hc.2 m f g hf hg, halike k newest hk c' hc'.1 hc'.2 m f' g hf' hg]

/-- A version of a module with one class, whose only method is `__init__`. -/
def initOnly (f : Nat) : Version where
  classes := .singleton "A" ⟨.singleton "__init__" (.method f), by
    intro e hmem
    rw [List.mem_singleton.mp hmem]
    rfl⟩

/-- Two reloads, by which no class dies. The first version is reached by `copy_dict` and has
the newest `__init__`; the second was updated by `update_dict` and has its own. -/
theorem alike_init : ¬ ∀ pre, pre <+: [.reload (initOnly 1) [], .reload (initOnly 2) []] →
    Ensures (exec (step 2) (start (initOnly 0)) pre) Alike fun _ => False := by
  intro h
  have hrun : Ensures (exec (step 2) (start (initOnly 0))
      [.reload (initOnly 1) [], .reload (initOnly 2) []]) (fun s =>
        (s.heap.ns .newMod).lookup "A" = some (.cls ⟨2, "A"⟩) ∧ s.dead = [] ∧
        (s.heap.ns (.cls ⟨0, "A"⟩)).lookup "__init__" = some (.method 2) ∧
        (s.heap.ns (.cls ⟨1, "A"⟩)).lookup "__init__" = some (.method 1) ∧
        (s.heap.ns (.cls ⟨2, "A"⟩)).lookup "__init__" = some (.method 2)) fun _ => False :=
    ⟨rfl, rfl, rfl, rfl, rfl⟩
  have hboth := hrun.and (h _ List.prefix_rfl)
  generalize exec _ _ _ = r at hboth
  cases r with
  | error x => exact hboth.1
  | ok s =>
    obtain ⟨⟨hk, hdead, -, hf, hg⟩, halike⟩ := hboth
    have heq : (1 : Nat) = 2 :=
      halike "A" _ hk ⟨1, "A"⟩ rfl (by simp [hdead]) "__init__" 1 2 hf hg
    cases heq

end MixServer.Script.Reload
