import Mathlib.Logic.Function.Basic
import MixServer.Lib.Run

/-!
`std_::shared_ptr` (`include/mem.hpp`): the shared pointer of debug builds, which counts
its values in a `Refinfo` for each object.

The values of a program are numbered in the order of their construction; a value that was
destroyed leaves its number behind. `Refinfo`s stand in the map `ref_infos` under the
address of their object and are never taken out, and the constructor asserts that there is
none for its address: a `Refinfo` is named by that address here.

`counts_iff` says when the counts are right and no assertion fails: no pointer that is empty
may be copied from, assigned from or destroyed, none that is not empty may be assigned to,
and no address may be used twice.
-/

namespace MixServer

open Lib

/-- The address of an object. -/
abbrev Addr := Nat

/-- A `std_::shared_ptr`: what its base class points to, and `ref_info`. Both are `none` for
null. -/
structure SharedPtr where
  obj : Option Addr
  refInfo : Option Addr
deriving DecidableEq, Repr

/-- What ends the program. -/
inductive PtrFault where
  /-- `assert(ref_infos.find(pobj)==ref_infos.end())`. -/
  | tracked
  /-- `assert(it!=ref_infos.end())`, of `get_refinfo`. -/
  | untracked
  /-- `assert(ref_info)`. -/
  | refInfo
  /-- `ref_info->add_inc()` with a null `ref_info`. -/
  | null
  /-- There is no such value: no operation of a program. -/
  | dead
deriving DecidableEq, Repr

/-- What a program does with its pointers. -/
inductive PtrOp where
  /-- `shared_ptr()`. -/
  | default
  /-- `shared_ptr(_Yp*)`, with the address of a new object. -/
  | raw (a : Addr)
  /-- `shared_ptr(const shared_ptr<T>&)`. -/
  | copy (i : Nat)
  /-- `shared_ptr(const std::shared_ptr<T>)`, with the base of a value. -/
  | fromStd (i : Nat)
  /-- `operator=`, to the `i`-th value from the `j`-th. -/
  | assign (i j : Nat)
  /-- `~shared_ptr()`. -/
  | destroy (i : Nat)
deriving DecidableEq, Repr

/-- The values by their numbers, and `ref_infos`, with the `ref_cnt` of each. -/
structure Refs where
  ptrs : List (Option SharedPtr) := []
  refCnt : Addr → Option Int := fun _ => none

namespace Refs

abbrev Result := Except PtrFault Refs

variable (s : Refs)

/-- The value with a number. -/
def get (i : Nat) : Except PtrFault SharedPtr :=
  match s.ptrs[i]? with
  | some (some p) => .ok p
  | _ => .error .dead

/-- A new value. -/
def construct (p : SharedPtr) : Refs := { s with ptrs := s.ptrs ++ [some p] }

/-- `Refinfo::Refinfo(pobj)`. -/
def newRefinfo (a : Addr) : Result :=
  if s.refCnt a = none then .ok { s with refCnt := Function.update s.refCnt a (some 0) }
  else .error .tracked

/-- `add_inc`. -/
def addInc (a : Addr) : Refs :=
  { s with refCnt := Function.update s.refCnt a ((s.refCnt a).map (· + 1)) }

/-- `add_dec`. -/
def addDec (a : Addr) : Refs :=
  { s with refCnt := Function.update s.refCnt a ((s.refCnt a).map (· - 1)) }

/-- `shared_ptr(_Yp*)`. -/
def raw (a : Addr) : Result := do
  let s ← s.newRefinfo a
  return (s.construct ⟨some a, some a⟩).addInc a

/-- `shared_ptr(const shared_ptr<T>&)`. -/
def copy (i : Nat) : Result := do
  let r ← s.get i
  match r.refInfo with
  | none => .error .refInfo
  | some a => .ok ((s.construct ⟨r.obj, some a⟩).addInc a)

/-- `shared_ptr(const std::shared_ptr<T>)`, which looks its `Refinfo` up. -/
def fromStd (i : Nat) : Result := do
  let r ← s.get i
  match r.obj with
  | none => .error .untracked
  | some a =>
      if s.refCnt a = none then .error .untracked
      else .ok ((s.construct ⟨some a, some a⟩).addInc a)

/-- `operator=`. -/
def assign (i j : Nat) : Result := do
  let _ ← s.get i
  let r ← s.get j
  let s := { s with ptrs := s.ptrs.set i (some r) }
  match r.refInfo with
  | none => .error .null
  | some a => .ok (s.addInc a)

/-- `~shared_ptr()`. -/
def destroy (i : Nat) : Result := do
  let p ← s.get i
  match p.refInfo with
  | none => .error .refInfo
  | some a => .ok ({ s with ptrs := s.ptrs.set i none }.addDec a)

def step (s : Refs) : PtrOp → Result
  | .default => .ok (s.construct ⟨none, none⟩)
  | .raw a => s.raw a
  | .copy i => s.copy i
  | .fromStd i => s.fromStd i
  | .assign i j => s.assign i j
  | .destroy i => s.destroy i

/-! ### Counts -/

/-- The value points to `a`. -/
def pointsTo (a : Addr) (p : Option SharedPtr) : Bool := p.bind SharedPtr.obj = some a

/-- How many live values point to `a`. -/
def pointing (a : Addr) : Nat := s.ptrs.countP (pointsTo a)

/-- Each `ref_cnt` is the number of live values that point to the object. -/
def Counts : Prop := ∀ a n, s.refCnt a = some n → n = s.pointing a

/-- The `i`-th value is not empty. -/
def Points (i : Nat) : Prop := ∃ p a, s.ptrs[i]? = some (some p) ∧ p.obj = some a

/-- The `i`-th value is alive. -/
def Live (i : Nat) : Prop := ∃ p, s.ptrs[i]? = some (some p)

/-- What a program may do: its operands are alive, and an address that is given to the
constructor is not one of an object that is still pointed to. -/
def Legal (s : Refs) : PtrOp → Prop
  | .default => True
  | .raw a => s.pointing a = 0
  | .copy i | .fromStd i | .destroy i => s.Live i
  | .assign i j => s.Live i ∧ s.Live j

/-- What the counter gets right. -/
def Counted (s : Refs) : PtrOp → Prop
  | .default => True
  | .raw a => s.refCnt a = none
  | .copy i | .fromStd i | .destroy i => s.Points i
  | .assign i j => s.Points j ∧ ¬ s.Points i

/-- `ref_info` is that of the object, which is tracked. -/
structure Tracked (p : SharedPtr) : Prop where
  refInfo : p.refInfo = p.obj
  tracked : ∀ a, p.obj = some a → s.refCnt a ≠ none

/-- Every value has its `Refinfo`, and the counts are right. -/
structure Inv : Prop where
  tracked : ∀ p, some p ∈ s.ptrs → s.Tracked p
  counts : s.Counts

variable {s : Refs} {a b : Addr} {i : Nat} {p q : SharedPtr}

@[simp] theorem pointsTo_none (a : Addr) : pointsTo a none = false := rfl

@[simp] theorem pointsTo_some (a : Addr) (p : SharedPtr) :
    pointsTo a (some p) = decide (p.obj = some a) := rfl

theorem pointing_construct :
    (s.construct p).pointing b = s.pointing b + if p.obj = some b then 1 else 0 := by
  simp [pointing, construct]

/-- Another value, or none, in the place of `p`. -/
theorem pointing_set (hp : s.ptrs[i]? = some (some p)) (q : Option SharedPtr) :
    pointing { s with ptrs := s.ptrs.set i q } b + (if p.obj = some b then 1 else 0) =
      s.pointing b + if pointsTo b q = true then 1 else 0 := by
  obtain ⟨hi, hget⟩ := List.getElem?_eq_some_iff.mp hp
  have hle := List.boole_getElem_le_countP (p := pointsTo b) hi
  simp only [hget, pointsTo_some, decide_eq_true_eq] at hle
  simp only [pointing, List.countP_set hi, hget, pointsTo_some, decide_eq_true_eq]
  omega

theorem pointing_pos (hp : s.ptrs[i]? = some (some p)) (hobj : p.obj = some a) :
    0 < s.pointing a :=
  List.countP_pos_iff.mpr ⟨_, List.mem_of_getElem? hp, by simp [hobj]⟩

theorem refCnt_addInc :
    (s.addInc a).refCnt b = if b = a then (s.refCnt a).map (· + 1) else s.refCnt b := by
  by_cases h : b = a
  · subst h
    simp [addInc]
  · simp [addInc, h]

theorem refCnt_addDec :
    (s.addDec a).refCnt b = if b = a then (s.refCnt a).map (· - 1) else s.refCnt b := by
  by_cases h : b = a
  · subst h
    simp [addDec]
  · simp [addDec, h]

theorem Tracked.of_refCnt {s' : Refs} (h : s.Tracked p)
    (hsame : ∀ a, s'.refCnt a = none → s.refCnt a = none) : s'.Tracked p :=
  ⟨h.refInfo, fun a ha hnone => h.tracked a ha (hsame a hnone)⟩

/-- The count of `a` changes as the number of values that point to it does. -/
theorem Inv.recount {s' : Refs} (h : Inv s) (f : Int → Int)
    (hcnt : ∀ b, s'.refCnt b = if b = a then (s.refCnt a).map f else s.refCnt b)
    (htracked : ∀ p, some p ∈ s'.ptrs → s.Tracked p) (hself : s'.pointing a = f (s.pointing a))
    (hother : ∀ b, b ≠ a → s'.pointing b = s.pointing b) : Inv s' := by
  constructor
  · intro p hp
    refine (htracked p hp).of_refCnt ?_
    intro b hnone
    rw [hcnt] at hnone
    split at hnone
    · rename_i heq
      rw [heq]
      exact Option.map_eq_none_iff.mp hnone
    · exact hnone
  · intro b n hn
    rw [hcnt] at hn
    split at hn
    · rename_i heq
      obtain ⟨m, hm, rfl⟩ := Option.map_eq_some_iff.mp hn
      rw [heq, hself, h.counts a m hm]
    · rename_i hne
      rw [hother b hne]
      exact h.counts b n hn

/-- One more value points to `a`, and its count goes up. -/
theorem Inv.addInc {s' : Refs} (h : Inv s) (hcnt : s'.refCnt = s.refCnt)
    (htracked : ∀ p, some p ∈ s'.ptrs → s.Tracked p)
    (hpointing : ∀ b, s'.pointing b = s.pointing b + if a = b then 1 else 0) :
    Inv (s'.addInc a) := by
  refine h.recount (a := a) (· + 1) ?_ htracked ?_ ?_
  · intro b
    rw [refCnt_addInc, hcnt]
  · have ha := hpointing a
    rw [if_pos rfl] at ha
    exact congrArg Int.ofNat ha
  · intro b hne
    exact (hpointing b).trans (by rw [if_neg (Ne.symm hne), Nat.add_zero])

/-- One value less points to `a`, and its count goes down. -/
theorem Inv.addDec {s' : Refs} (h : Inv s) (hcnt : s'.refCnt = s.refCnt)
    (htracked : ∀ p, some p ∈ s'.ptrs → s.Tracked p)
    (hpointing : ∀ b, s'.pointing b + (if a = b then 1 else 0) = s.pointing b) :
    Inv (s'.addDec a) := by
  refine h.recount (a := a) (· - 1) ?_ htracked ?_ ?_
  · intro b
    rw [refCnt_addDec, hcnt]
  · have ha := hpointing a
    rw [if_pos rfl] at ha
    rw [← ha, Int.natCast_add]
    exact (Int.add_sub_cancel _ _).symm
  · intro b hne
    have hb := hpointing b
    rw [if_neg (Ne.symm hne)] at hb
    exact hb

theorem inv_init : Inv {} := by
  constructor
  · intro p hp
    cases hp
  · intro a n hn
    cases hn

/-! ### Operations -/

theorem get_eq (hp : s.ptrs[i]? = some (some p)) : s.get i = .ok p := by
  simp [get, hp]

theorem Inv.tracked_get (h : Inv s) (hp : s.ptrs[i]? = some (some p)) : s.Tracked p :=
  h.tracked p (List.mem_of_getElem? hp)

/-- A value that is not empty has its `Refinfo`. -/
theorem Inv.points (h : Inv s) (hpoints : s.Points i) :
    ∃ a, s.get i = .ok ⟨some a, some a⟩ ∧ s.ptrs[i]? = some (some ⟨some a, some a⟩) ∧
      s.refCnt a ≠ none := by
  obtain ⟨⟨obj, refInfo⟩, a, hp, hobj⟩ := hpoints
  have htracked := h.tracked_get hp
  obtain rfl : obj = some a := hobj
  obtain rfl : refInfo = some a := htracked.refInfo
  exact ⟨a, get_eq hp, hp, htracked.tracked a rfl⟩

/-- An empty value has none. -/
theorem Inv.empty (h : Inv s) (hlive : s.Live i) (hpoints : ¬ s.Points i) :
    s.get i = .ok ⟨none, none⟩ ∧ s.ptrs[i]? = some (some ⟨none, none⟩) := by
  obtain ⟨⟨obj, refInfo⟩, hp⟩ := hlive
  have htracked := h.tracked_get hp
  have hnone : obj = none := by
    cases hobj : obj with
    | none => rfl
    | some a => exact absurd ⟨_, a, hp, hobj⟩ hpoints
  obtain rfl : refInfo = obj := htracked.refInfo
  subst hnone
  exact ⟨get_eq hp, hp⟩

/-- A new value that points to a tracked object. -/
theorem Inv.construct (h : Inv s) (ha : s.refCnt a ≠ none) :
    Inv ((s.construct ⟨some a, some a⟩).addInc a) := by
  have hcnt : (s.construct ⟨some a, some a⟩).refCnt = s.refCnt := rfl
  apply h.addInc hcnt
  · intro p hp
    rcases List.mem_append.mp hp with hold | hnew
    · exact h.tracked p hold
    · obtain rfl : p = ⟨some a, some a⟩ := by simpa using hnew
      refine ⟨rfl, ?_⟩
      rintro b ⟨⟩
      exact ha
  · intro b
    rw [pointing_construct]
    simp

theorem Inv.raw (h : Inv s) (hlegal : s.pointing a = 0) (hnew : s.refCnt a = none) :
    Ensures (s.raw a) Inv fun _ => False := by
  have htrack : Inv { s with refCnt := Function.update s.refCnt a (some 0) } := by
    constructor
    · intro p hp
      refine (h.tracked p hp).of_refCnt ?_
      intro b hnone
      by_cases hb : b = a
      · rwa [hb]
      · simpa [hb] using hnone
    · intro b n hn
      by_cases hb : b = a
      · subst hb
        have hn' : (0 : Int) = n := by simpa using hn
        have hnone : pointing { s with refCnt := Function.update s.refCnt b (some 0) } b = 0 :=
          hlegal
        rw [← hn', hnone]
        rfl
      · exact h.counts b n (by simpa [hb] using hn)
  simp only [Refs.raw, newRefinfo, if_pos hnew, ok_bind]
  exact htrack.construct (by simp)

theorem Inv.assign (h : Inv s) {j : Nat} (hlive : s.Live i) (hi : ¬ s.Points i)
    (hj : s.Points j) : Ensures (s.assign i j) Inv fun _ => False := by
  obtain ⟨hget, hp⟩ := h.empty hlive hi
  obtain ⟨a, hget', hq, ha⟩ := h.points hj
  simp only [Refs.assign, hget, hget', ok_bind]
  refine h.addInc rfl ?_ ?_
  · intro r hr
    rcases List.mem_or_eq_of_mem_set hr with hold | hnew
    · exact h.tracked r hold
    · cases hnew
      exact h.tracked_get hq
  · intro b
    have hset := pointing_set (b := b) hp (some ⟨some a, some a⟩)
    simpa using hset

theorem Inv.destroy (h : Inv s) (hi : s.Points i) : Ensures (s.destroy i) Inv fun _ => False := by
  obtain ⟨a, hget, hp, ha⟩ := h.points hi
  simp only [Refs.destroy, hget, ok_bind]
  refine h.addDec rfl ?_ ?_
  · intro r hr
    rcases List.mem_or_eq_of_mem_set hr with hold | hnew
    · exact h.tracked r hold
    · cases hnew
  · intro b
    have hset := pointing_set (b := b) hp none
    simpa using hset

/-- **One operation** that the counter counts. -/
theorem Inv.step (h : Inv s) {op : PtrOp} (hlegal : s.Legal op) (hcounted : s.Counted op) :
    Ensures (s.step op) Inv fun _ => False := by
  cases op with
  | default =>
    constructor
    · intro p hp
      rcases List.mem_append.mp hp with hold | hnew
      · exact (h.tracked p hold).of_refCnt fun _ => id
      · obtain rfl : p = ⟨none, none⟩ := by simpa using hnew
        exact ⟨rfl, fun a ha => by cases ha⟩
    · intro b n hn
      rw [pointing_construct]
      exact h.counts b n hn
  | raw a => exact h.raw hlegal hcounted
  | copy i =>
    obtain ⟨a, hget, -, ha⟩ := h.points hcounted
    simp only [Refs.step, Refs.copy, hget, ok_bind]
    exact h.construct ha
  | fromStd i =>
    obtain ⟨a, hget, -, ha⟩ := h.points hcounted
    simp only [Refs.step, Refs.fromStd, hget, ok_bind, if_neg ha]
    exact h.construct ha
  | assign i j => exact h.assign hlegal.1 hcounted.2 hcounted.1
  | destroy i => exact h.destroy hcounted

/-- An assignment over a value that is not empty counts the new object, and leaves the count of
the old one. -/
theorem Inv.assign_over (h : Inv s) {j : Nat} (hi : s.Points i) (hj : s.Points j) :
    ¬ Ensures (s.assign i j) Counts fun _ => False := by
  obtain ⟨b, hget, hp, hb⟩ := h.points hi
  obtain ⟨a, hget', hq, ha⟩ := h.points hj
  obtain ⟨n, hn⟩ := Option.ne_none_iff_exists'.mp hb
  have hcount := h.counts b n hn
  have hpos := pointing_pos hp rfl
  have hset := pointing_set (b := b) hp (some ⟨some a, some a⟩)
  simp only [Refs.assign, hget, hget', ok_bind]
  intro hcounts
  by_cases heq : b = a
  · subst heq
    have hnew : n + 1 = pointing { s with ptrs := s.ptrs.set i (some ⟨some b, some b⟩) } b :=
      hcounts b (n + 1) (by simp [refCnt_addInc, hn])
    simp only [pointsTo_some, decide_true, if_true] at hset
    omega
  · have hnew : n = pointing { s with ptrs := s.ptrs.set i (some ⟨some a, some a⟩) } b :=
      hcounts b n (by simp [refCnt_addInc, heq, hn])
    simp only [pointsTo_some, Option.some.injEq, Ne.symm heq, decide_false, if_true,
      Bool.false_eq_true, if_false] at hset
    omega

/-- Any other operation fails an assertion, or leaves a wrong count. -/
theorem Inv.step_uncounted (h : Inv s) {op : PtrOp} (hlegal : s.Legal op)
    (hcounted : ¬ s.Counted op) : ¬ Ensures (s.step op) Counts fun _ => False := by
  cases op with
  | default => exact absurd trivial hcounted
  | raw a =>
    have htracked : s.refCnt a ≠ none := hcounted
    simp only [Refs.step, Refs.raw, newRefinfo, if_neg htracked]
    exact id
  | copy i =>
    obtain ⟨hget, -⟩ := h.empty hlegal hcounted
    simp only [Refs.step, Refs.copy, hget, ok_bind]
    exact id
  | fromStd i =>
    obtain ⟨hget, -⟩ := h.empty hlegal hcounted
    simp only [Refs.step, Refs.fromStd, hget, ok_bind]
    exact id
  | assign i j =>
    by_cases hj : s.Points j
    · by_cases hi : s.Points i
      · exact h.assign_over hi hj
      · exact absurd ⟨hj, hi⟩ hcounted
    · obtain ⟨p, hp⟩ := hlegal.1
      obtain ⟨hget, -⟩ := h.empty hlegal.2 hj
      simp only [Refs.step, Refs.assign, get_eq hp, hget, ok_bind]
      exact id
  | destroy i =>
    obtain ⟨hget, -⟩ := h.empty hlegal hcounted
    simp only [Refs.step, Refs.destroy, hget, ok_bind]
    exact id

/-! ### Programs -/

/-- **The debug reference counter counts.** In every program: after every beginning of its
operations each `ref_cnt` is the number of live values that point to its object, and no
assertion has failed, if and only if every operation is counted. -/
theorem counts_iff {ops : List PtrOp} (hlegal : Every step Legal {} ops) :
    (∀ pre, pre <+: ops → Ensures (exec step {} pre) Counts fun _ => False) ↔
      Every step Counted {} ops :=
  prefixes_iff_every_of_legal (G := fun _ => Counts) (I := fun _ => Inv)
    (fun _ _ _ h hL hC => h.step hL hC) (fun _ _ _ h hL hC => h.step_uncounted hL hC)
    (fun _ _ h => h.counts) [] inv_init hlegal

/-- An object with two values, and one that is empty until the first is assigned to it. -/
theorem counts_iff_copied :
    Every step Legal {} [.raw 1, .copy 0, .default, .assign 2 0, .destroy 1] ∧
      ∀ pre, pre <+: [.raw 1, .copy 0, .default, .assign 2 0, .destroy 1] →
        Ensures (exec step {} pre) Counts fun _ => False := by
  have hlegal : Every step Legal {} [.raw 1, .copy 0, .default, .assign 2 0, .destroy 1] := by
    refine ⟨rfl, ?_⟩
    rintro s₁ ⟨⟩
    refine ⟨⟨_, rfl⟩, ?_⟩
    rintro s₂ ⟨⟩
    refine ⟨trivial, ?_⟩
    rintro s₃ ⟨⟩
    refine ⟨⟨⟨_, rfl⟩, _, rfl⟩, ?_⟩
    rintro s₄ ⟨⟩
    exact ⟨⟨_, rfl⟩, fun _ _ => trivial⟩
  refine ⟨hlegal, (counts_iff hlegal).mpr ⟨rfl, ?_⟩⟩
  rintro s₁ ⟨⟩
  refine ⟨⟨_, 1, rfl, rfl⟩, ?_⟩
  rintro s₂ ⟨⟩
  refine ⟨trivial, ?_⟩
  rintro s₃ ⟨⟩
  refine ⟨⟨⟨_, 1, rfl, rfl⟩, ?_⟩, ?_⟩
  · rintro ⟨p, a, ⟨⟩, ⟨⟩⟩
  · rintro s₄ ⟨⟩
    exact ⟨⟨_, 1, rfl, rfl⟩, fun _ _ => trivial⟩

/-- A pointer that is default-constructed and destroyed. -/
theorem counts_default :
    ¬ ∀ ops : List PtrOp, Every step Legal {} ops →
      ∀ pre, pre <+: ops → Ensures (exec step {} pre) Counts fun _ => False := by
  intro h
  have hlegal : Every step Legal {} [.default, .destroy 0] := by
    refine ⟨trivial, ?_⟩
    rintro s' ⟨⟩
    exact ⟨⟨_, rfl⟩, fun _ _ => trivial⟩
  exact h _ hlegal _ List.prefix_rfl

end Refs

end MixServer
