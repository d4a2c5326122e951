import Mathlib.Data.List.Perm.Basic
import Mathlib.Logic.Equiv.Basic
import Mathlib.Tactic.Linarith

/-!
Binary heaps in a vector, as the C++ standard library's `push_heap`, `pop_heap`
and `make_heap` build them: `comp a b` says that `b` belongs above `a`, and an
element never has a child that belongs above it.

The functions move one element along a path of the tree by swaps: `pushUp`
towards the root, `adjust` down to a leaf, always towards the better child, and
then up again. They permute whatever vector they are given; that they build
heaps rests on `comp` being a strict weak order.

* `pushUp_heapFrom` and `adjust_heapFrom` are the two step lemmas: an element
  that is out of place at one position is put right.
* `pushHeap_isHeap`, `popHeap_isHeap` and `makeHeap_isHeap` are what the standard
  promises of the three functions.
* `pushHeap_front` and `popHeap_perm` say which element is at the front: a pushed
  element that does not belong above the front leaves it there, and `popHeap`
  takes away the front itself.
-/

namespace Lib.Heap

variable {α : Type*}

/-! ### Positions -/

def parent (i : Nat) : Nat := (i - 1) / 2

theorem parent_lt {i : Nat} (hi : 0 < i) : parent i < i := by
  simp only [parent]
  omega

/-- A child is the left or the right one. -/
theorem parent_eq_iff {i p : Nat} (hi : 0 < i) : parent i = p ↔ i = 2 * p + 1 ∨ i = 2 * p + 2 := by
  simp only [parent]
  omega

/-! ### The functions -/

/-- Swaps two elements; positions outside the vector are left alone. -/
def swap (v : List α) (i j : Nat) : List α :=
  match v[i]?, v[j]? with
  | some a, some b => (v.set i b).set j a
  | _, _ => v

/-- `comp` of the elements at two positions of the vector. -/
def compAt (comp : α → α → Bool) (v : List α) (i j : Nat) : Bool :=
  match v[i]?, v[j]? with
  | some a, some b => comp a b
  | _, _ => false

variable (comp : α → α → Bool)

/-- The element at `i` rises while it belongs above its parent, at most to
`top`. The first argument bounds the number of moves. -/
def pushUp (top : Nat) : Nat → List α → Nat → List α
  | 0, v, _ => v
  | moves + 1, v, i =>
      if top < i ∧ compAt comp v (parent i) i then
        pushUp top moves (swap v i (parent i)) (parent i)
      else
        v

/-- The child of `i` that an element sinks to: the right one, unless it belongs
below the left one. -/
def better (v : List α) (i : Nat) : Nat :=
  if compAt comp v (2 * i + 2) (2 * i + 1) then 2 * i + 1 else 2 * i + 2

/-- The element at `i` sinks to a leaf, each time to the place of the better
child, and rises from there to its own place, at most to `top`. -/
def adjust (top : Nat) : Nat → List α → Nat → List α
  | 0, v, _ => v
  | moves + 1, v, i =>
      if 2 * i + 2 < v.length then
        adjust top moves (swap v i (better comp v i)) (better comp v i)
      else if 2 * i + 1 < v.length then
        pushUp comp top v.length (swap v i (2 * i + 1)) (2 * i + 1)
      else
        pushUp comp top v.length v i

/-- `std::push_heap`: the last element rises. -/
def pushHeap (v : List α) : List α := pushUp comp 0 v.length v (v.length - 1)

/-- `std::pop_heap` and `pop_back`: the front changes places with the last
element, is removed, and the new front is adjusted. -/
def popHeap (v : List α) : List α :=
  let v' := (swap v 0 (v.length - 1)).dropLast
  adjust comp 0 v'.length v' 0

/-- `std::make_heap` from the position `n` downwards. -/
def makeHeapFrom : Nat → List α → List α
  | 0, v => v
  | n + 1, v => makeHeapFrom n (adjust comp n v.length v n)

/-- `std::make_heap`: all positions that have a child, the last one first. -/
def makeHeap (v : List α) : List α := makeHeapFrom comp (v.length / 2) v

/-! ### Swaps -/

section Swaps

variable {comp} {v : List α} {i j : Nat}

@[simp] theorem length_swap : (swap v i j).length = v.length := by
  simp only [swap]
  split <;> simp

theorem swap_of_lt (hi : i < v.length) (hj : j < v.length) :
    swap v i j = (v.set i v[j]).set j v[i] := by
  simp [swap, hi, hj]

theorem swap_perm (hi : i < v.length) (hj : j < v.length) : (swap v i j).Perm v := by
  rw [swap_of_lt hi hj]
  exact List.set_set_perm hi hj

/-- The element at `k` after a swap. -/
theorem getElem?_swap (hi : i < v.length) (hj : j < v.length) (k : Nat) :
    (swap v i j)[k]? = v[Equiv.swap i j k]? := by
  rw [swap_of_lt hi hj, List.getElem?_set, List.getElem?_set, Equiv.swap_apply_def]
  by_cases hkj : j = k
  · subst hkj
    by_cases hij : i = j
    · subst hij; simp [hi]
    · simp [hi, hj, Ne.symm hij]
  · by_cases hki : i = k
    · subst hki; simp [hkj, hi, hj]
    · simp [hkj, hki, Ne.symm hkj, Ne.symm hki]

theorem compAt_swap (hi : i < v.length) (hj : j < v.length) (p c : Nat) :
    compAt comp (swap v i j) p c = compAt comp v (Equiv.swap i j p) (Equiv.swap i j c) := by
  simp only [compAt, getElem?_swap hi hj]

/-- Positions outside the vector are never out of order. -/
theorem compAt_of_le {p c : Nat} (hc : v.length ≤ c) : compAt comp v p c = false := by
  have hnone : v[c]? = none := List.getElem?_eq_none hc
  simp only [compAt, hnone]
  cases v[p]? <;> rfl

theorem compAt_getElem {p c : Nat} (hp : p < v.length) (hc : c < v.length) :
    compAt comp v p c = comp v[p] v[c] := by
  simp [compAt, hp, hc]

theorem lt_of_compAt {p c : Nat} (h : compAt comp v p c = true) : p < v.length ∧ c < v.length := by
  simp only [compAt] at h
  split at h
  · rename_i hp hc
    exact ⟨(List.getElem?_eq_some_iff.mp hp).1, (List.getElem?_eq_some_iff.mp hc).1⟩
  · cases h

end Swaps

/-! ### Permutations -/

theorem pushUp_perm (top moves : Nat) (v : List α) (i : Nat) :
    (pushUp comp top moves v i).Perm v := by
  induction moves generalizing v i with
  | zero => exact List.Perm.refl v
  | succ moves ih =>
    simp only [pushUp]
    split
    · rename_i h
      have hlt := lt_of_compAt h.2
      exact (ih _ _).trans (swap_perm hlt.2 hlt.1)
    · exact List.Perm.refl v

theorem better_cases (v : List α) (i : Nat) :
    better comp v i = 2 * i + 1 ∨ better comp v i = 2 * i + 2 := by
  simp only [better]
  split
  · exact .inl rfl
  · exact .inr rfl

theorem adjust_perm (top moves : Nat) (v : List α) (i : Nat) :
    (adjust comp top moves v i).Perm v := by
  induction moves generalizing v i with
  | zero => exact List.Perm.refl v
  | succ moves ih =>
    simp only [adjust]
    split
    · have hchild : better comp v i < v.length := by
        rcases better_cases comp v i with h | h <;> omega
      exact (ih _ _).trans (swap_perm (by omega) hchild)
    · split
      · exact (pushUp_perm comp _ _ _ _).trans (swap_perm (by omega) (by omega))
      · exact pushUp_perm comp _ _ _ _

theorem pushHeap_perm (v : List α) (x : α) : (pushHeap comp (v ++ [x])).Perm (x :: v) :=
  (pushUp_perm comp _ _ _ _).trans (List.perm_append_singleton x v)

/-- What `pop_heap` and `pop_back` take away is the front. -/
theorem popHeap_perm (x : α) (v : List α) : (popHeap comp (x :: v)).Perm v := by
  refine (adjust_perm comp _ _ _ _).trans ?_
  have hlast : (swap (x :: v) 0 v.length) ≠ [] := by
    intro h
    have := congrArg List.length h
    simp at this
  have hfront : (swap (x :: v) 0 v.length).getLast hlast = x := by
    have hget := getElem?_swap (v := x :: v) (i := 0) (j := v.length) (by simp) (by simp) v.length
    rw [Equiv.swap_apply_right] at hget
    rw [List.getLast_eq_getElem]
    simpa using hget
  have hperm := swap_perm (v := x :: v) (i := 0) (j := v.length) (by simp) (by simp)
  rw [← List.dropLast_append_getLast hlast, hfront] at hperm
  have := (List.perm_append_singleton x _).symm.trans hperm
  simpa using this

theorem makeHeap_perm (v : List α) : (makeHeap comp v).Perm v := by
  have hfrom : ∀ n (v : List α), (makeHeapFrom comp n v).Perm v := by
    intro n
    induction n with
    | zero => exact fun v => List.Perm.refl v
    | succ n ih => exact fun v => (ih _).trans (adjust_perm comp _ _ _ _)
  exact hfrom _ v

/-- Taking an element out by putting the last one in its place. -/
theorem set_dropLast_perm {v : List α} {i : Nat} {x back : α} (hx : v[i]? = some x)
    (hback : v.getLast? = some back) : (x :: (v.set i back).dropLast).Perm v := by
  obtain ⟨init, rfl⟩ := List.getLast?_eq_some_iff.mp hback
  obtain ⟨hi, hget⟩ := List.getElem?_eq_some_iff.mp hx
  by_cases hlast : i < init.length
  · rw [List.set_append_left _ _ hlast, List.dropLast_concat]
    rw [List.getElem_append_left hlast] at hget
    have hsplit : init = init.take i ++ x :: init.drop (i + 1) := by
      rw [← hget, List.getElem_cons_drop, List.take_append_drop]
    have hset : init.set i back = init.take i ++ back :: init.drop (i + 1) :=
      List.set_eq_take_append_cons_drop.trans (if_pos hlast)
    rw [hset]
    nth_rewrite 3 [hsplit]
    have hout : (x :: (init.take i ++ back :: init.drop (i + 1))).Perm
        (x :: back :: (init.take i ++ init.drop (i + 1))) := List.perm_middle.cons x
    have hin : (back :: x :: (init.take i ++ init.drop (i + 1))).Perm
        (back :: (init.take i ++ x :: init.drop (i + 1))) := List.perm_middle.symm.cons back
    exact hout.trans ((List.Perm.swap _ _ _).trans
      (hin.trans (List.perm_append_singleton back _).symm))
  · have hend : i = init.length := by
      rw [List.length_append, List.length_singleton] at hi
      omega
    subst hend
    have hxb : back = x := by simpa using hget
    subst hxb
    rw [List.set_append_right _ _ (Nat.le_refl _)]
    simpa using (List.perm_append_singleton back init).symm

/-! ### The front -/

/-- An element that does not belong above the front does not reach it; this needs
no heap. -/
theorem pushUp_front {moves : Nat} {v : List α} {i : Nat} (hi : i ≠ 0)
    (hfront : compAt comp v 0 i = false) : (pushUp comp 0 moves v i)[0]? = v[0]? := by
  induction moves generalizing v i with
  | zero => rfl
  | succ moves ih =>
    simp only [pushUp]
    split
    · rename_i h
      have hlt := lt_of_compAt h.2
      have hp : parent i ≠ 0 := by
        intro hzero
        rw [hzero, hfront] at h
        exact absurd h.2 (by simp)
      rw [ih hp]
      · rw [getElem?_swap hlt.2 hlt.1, Equiv.swap_apply_of_ne_of_ne (Ne.symm hi) (Ne.symm hp)]
      · rw [compAt_swap hlt.2 hlt.1, Equiv.swap_apply_right,
          Equiv.swap_apply_of_ne_of_ne (Ne.symm hi) (Ne.symm hp)]
        exact hfront
    · rfl

/-- A pushed element that does not belong above the front leaves it there. -/
theorem pushHeap_front {f : α} {v : List α} {x : α} (hx : comp f x = false) :
    (pushHeap comp (f :: v ++ [x]))[0]? = some f := by
  have hlast : (f :: v ++ [x]).length - 1 = v.length + 1 := by simp
  rw [pushHeap, hlast, pushUp_front comp (Nat.succ_ne_zero _)]
  · rfl
  · rw [compAt_getElem (by simp) (by simp)]
    simpa using hx

/-! ### The heap order -/

/-- A strict weak order, which the standard asks of a comparison. -/
structure StrictWeak (comp : α → α → Bool) : Prop where
  asymm : ∀ {a b}, comp a b = true → comp b a = false
  negTrans : ∀ {a b c}, comp a b = false → comp b c = false → comp a c = false

theorem StrictWeak.irrefl {comp : α → α → Bool} (hcomp : StrictWeak comp) (a : α) :
    comp a a = false := by
  by_contra h
  rw [Bool.not_eq_false] at h
  have hback := hcomp.asymm h
  rw [h] at hback
  cases hback

/-- The comparison of a key. -/
theorem StrictWeak.of_key {β : Type*} [LinearOrder β] (key : α → β) :
    StrictWeak fun a b => decide (key a > key b) where
  asymm h := decide_eq_false (not_lt_of_gt (of_decide_eq_true h))
  negTrans h h' := decide_eq_false
    (not_lt_of_ge ((not_lt.mp (of_decide_eq_false h)).trans (not_lt.mp (of_decide_eq_false h'))))

/-- No element at or under `top` has a child that belongs above it. -/
def HeapFrom (top : Nat) (v : List α) : Prop :=
  ∀ c, 0 < c → top ≤ parent c → compAt comp v (parent c) c = false

/-- No element has a child that belongs above it. -/
def IsHeap (v : List α) : Prop := HeapFrom comp 0 v

/-- The position `i` is `top` or under it. -/
inductive Below (top : Nat) : Nat → Prop
  | self : Below top top
  | child {c : Nat} : 0 < c → Below top (parent c) → Below top c

theorem Below.le {top i : Nat} (h : Below top i) : top ≤ i := by
  induction h with
  | self => exact Nat.le_refl _
  | child hc _ ih => exact ih.trans (parent_lt hc).le

theorem Below.up {top i : Nat} (h : Below top i) (hi : top < i) : Below top (parent i) := by
  cases h with
  | self => exact absurd hi (Nat.lt_irrefl _)
  | child _ h => exact h

/-- Every position is under the root. -/
theorem below_root (i : Nat) : Below 0 i := by
  induction i using Nat.strongRecOn with
  | ind i ih =>
    rcases Nat.eq_zero_or_pos i with rfl | hi
    · exact .self
    · exact .child hi (ih (parent i) (parent_lt hi))

section Order

variable {comp} {v : List α} {top i : Nat}

theorem compAt_asymm (hcomp : StrictWeak comp) {p c : Nat} (h : compAt comp v p c = true) :
    compAt comp v c p = false := by
  have hlt := lt_of_compAt h
  rw [compAt_getElem hlt.1 hlt.2] at h
  rw [compAt_getElem hlt.2 hlt.1]
  exact hcomp.asymm h

theorem compAt_irrefl (hcomp : StrictWeak comp) (i : Nat) : compAt comp v i i = false := by
  by_cases hi : i < v.length
  · rw [compAt_getElem hi hi]
    exact hcomp.irrefl _
  · exact compAt_of_le (not_lt.mp hi)

theorem compAt_negTrans (hcomp : StrictWeak comp) {a b c : Nat} (hb : b < v.length)
    (hab : compAt comp v a b = false) (hbc : compAt comp v b c = false) :
    compAt comp v a c = false := by
  by_contra hac
  rw [Bool.not_eq_false] at hac
  have hlt := lt_of_compAt hac
  rw [compAt_getElem hlt.1 hb] at hab
  rw [compAt_getElem hb hlt.2] at hbc
  rw [compAt_getElem hlt.1 hlt.2, hcomp.negTrans hab hbc] at hac
  cases hac

/-- What is below an element is below everything that belongs above that element. -/
theorem compAt_of_above (hcomp : StrictWeak comp) {p x c : Nat} (hpx : compAt comp v p x = true)
    (hpc : compAt comp v p c = false) : compAt comp v x c = false := by
  by_contra hxc
  rw [Bool.not_eq_false] at hxc
  have hpx' := compAt_negTrans hcomp (lt_of_compAt hxc).2 hpc (compAt_asymm hcomp hxc)
  rw [hpx] at hpx'
  cases hpx'

/-! ### Rising -/

/-- Only the element at `i` may belong above its parent; its children are below
that parent. -/
structure UpReady (comp : α → α → Bool) (top : Nat) (v : List α) (i : Nat) : Prop where
  others : ∀ c, 0 < c → top ≤ parent c → c ≠ i → compAt comp v (parent c) c = false
  above : top < i → ∀ c, 0 < c → parent c = i → compAt comp v (parent i) c = false

theorem UpReady.move (hcomp : StrictWeak comp) (h : UpReady comp top v i) (hbelow : Below top i)
    (hi : top < i) (hx : compAt comp v (parent i) i = true) :
    UpReady comp top (swap v i (parent i)) (parent i) := by
  have hpos : 0 < i := Nat.zero_lt_of_lt hi
  have hpi := parent_lt hpos
  obtain ⟨hp, hilen⟩ := lt_of_compAt hx
  constructor
  · intro c hc hctop hcp
    rw [compAt_swap hilen hp]
    by_cases hci : c = i
    · -- the old parent has taken the place of the element
      subst hci
      rw [Equiv.swap_apply_right, Equiv.swap_apply_left]
      exact compAt_asymm hcomp hx
    · rw [Equiv.swap_apply_of_ne_of_ne hci hcp]
      by_cases hpc : parent c = i
      · rw [hpc, Equiv.swap_apply_left]
        exact h.above hi c hc hpc
      · by_cases hsib : parent c = parent i
        · rw [hsib, Equiv.swap_apply_right]
          apply compAt_of_above hcomp hx
          rw [← hsib]
          exact h.others c hc hctop hci
        · rw [Equiv.swap_apply_of_ne_of_ne hpc hsib]
          exact h.others c hc hctop hci
  · intro htop c hc hpc
    have hppos : 0 < parent i := Nat.zero_lt_of_lt htop
    have hpp := parent_lt hppos
    have htoppp : top ≤ parent (parent i) := ((hbelow.up hi).up htop).le
    have hgrand : compAt comp v (parent (parent i)) (parent i) = false :=
      h.others (parent i) hppos htoppp (by omega)
    rw [compAt_swap hilen hp,
      Equiv.swap_apply_of_ne_of_ne (show parent (parent i) ≠ i by omega) (by omega)]
    by_cases hci : c = i
    · subst hci
      rw [Equiv.swap_apply_left]
      exact hgrand
    · have hcp : parent c < c := parent_lt hc
      rw [Equiv.swap_apply_of_ne_of_ne hci (show c ≠ parent i by omega)]
      apply compAt_negTrans hcomp hp hgrand
      rw [← hpc]
      exact h.others c hc (hpc ▸ htop.le) hci

theorem pushUp_heapFrom (hcomp : StrictWeak comp) {moves : Nat} (hmoves : i ≤ moves)
    (hbelow : Below top i) (h : UpReady comp top v i) :
    HeapFrom comp top (pushUp comp top moves v i) := by
  have hstop : ∀ {v : List α} {i : Nat}, UpReady comp top v i →
      ¬ (top < i ∧ compAt comp v (parent i) i = true) → HeapFrom comp top v := by
    intro v i h hstop c hc hctop
    by_cases hci : c = i
    · subst hci
      by_contra hx
      rw [Bool.not_eq_false] at hx
      exact hstop ⟨hctop.trans_lt (parent_lt hc), hx⟩
    · exact h.others c hc hctop hci
  induction moves generalizing v i with
  | zero =>
    apply hstop h
    rintro ⟨hi, -⟩
    omega
  | succ moves ih =>
    simp only [pushUp]
    split
    · rename_i hx
      have hpi := parent_lt (Nat.zero_lt_of_lt hx.1)
      exact ih (by omega) (hbelow.up hx.1) (h.move hcomp hbelow hx.1 hx.2)
    · rename_i hx
      exact hstop h hx

/-! ### Sinking -/

/-- Only the element at `i` may be out of order; its children are below its
parent. -/
structure DownReady (comp : α → α → Bool) (top : Nat) (v : List α) (i : Nat) : Prop where
  others : ∀ c, 0 < c → top ≤ parent c → c ≠ i → parent c ≠ i → compAt comp v (parent c) c = false
  above : top < i → ∀ c, 0 < c → parent c = i → compAt comp v (parent i) c = false

/-- The element changes places with a child that no child belongs above. -/
theorem DownReady.move (h : DownReady comp top v i) {s : Nat} (hs : 0 < s) (hslen : s < v.length)
    (hps : parent s = i) (hbelow : Below top i)
    (hbest : ∀ c, 0 < c → parent c = i → compAt comp v s c = false) :
    DownReady comp top (swap v i s) s := by
  have his : i < s := hps ▸ parent_lt hs
  have hilen : i < v.length := his.trans hslen
  constructor
  · intro c hc hctop hcs hpcs
    rw [compAt_swap hilen hslen]
    by_cases hci : c = i
    · subst hci
      have hpc := parent_lt hc
      rw [Equiv.swap_apply_left, Equiv.swap_apply_of_ne_of_ne hpc.ne hpcs]
      exact h.above (hctop.trans_lt hpc) s hs hps
    · rw [Equiv.swap_apply_of_ne_of_ne hci hcs]
      by_cases hpc : parent c = i
      · rw [hpc, Equiv.swap_apply_left]
        exact hbest c hc hpc
      · rw [Equiv.swap_apply_of_ne_of_ne hpc hpcs]
        exact h.others c hc hctop hci hpc
  · intro _ c hc hpc
    have hcs : s < c := hpc ▸ parent_lt hc
    rw [compAt_swap hilen hslen, hps, Equiv.swap_apply_left,
      Equiv.swap_apply_of_ne_of_ne (show c ≠ i by omega) hcs.ne']
    rw [← hpc]
    apply h.others c hc
    · rw [hpc]
      exact hbelow.le.trans his.le
    · omega
    · omega

/-- Without children in the vector, the element can only be too low. -/
theorem DownReady.leaf (h : DownReady comp top v i) (hleaf : v.length ≤ 2 * i + 1) :
    UpReady comp top v i := by
  constructor
  · intro c hc hctop hci
    by_cases hpc : parent c = i
    · apply compAt_of_le
      rcases (parent_eq_iff hc).mp hpc with h | h <;> omega
    · exact h.others c hc hctop hci hpc
  · exact h.above

/-- No child belongs above the better one. -/
theorem better_best (hcomp : StrictWeak comp) {c : Nat} (hc : 0 < c) (hpc : parent c = i) :
    compAt comp v (better comp v i) c = false := by
  simp only [better]
  split
  · rename_i hright
    rcases (parent_eq_iff hc).mp hpc with rfl | rfl
    · exact compAt_irrefl hcomp _
    · exact compAt_asymm hcomp hright
  · rename_i hright
    rcases (parent_eq_iff hc).mp hpc with rfl | rfl
    · exact Bool.not_eq_true _ |>.mp hright
    · exact compAt_irrefl hcomp _

theorem adjust_heapFrom (hcomp : StrictWeak comp) {moves : Nat} (hmoves : v.length ≤ i + moves)
    (hi : i < v.length) (hbelow : Below top i) (h : DownReady comp top v i) :
    HeapFrom comp top (adjust comp top moves v i) := by
  induction moves generalizing v i with
  | zero => omega
  | succ moves ih =>
    simp only [adjust]
    split
    · rename_i hlen
      have hcases := better_cases comp v i
      have hpos : 0 < better comp v i := by rcases hcases with h | h <;> omega
      have hslen : better comp v i < v.length := by rcases hcases with h | h <;> omega
      have hps : parent (better comp v i) = i := (parent_eq_iff hpos).mpr hcases
      have hbelow' : Below top (better comp v i) := .child hpos (by rwa [hps])
      apply ih
      · have := parent_lt hpos
        rw [length_swap]
        omega
      · rwa [length_swap]
      · exact hbelow'
      · exact h.move hpos hslen hps hbelow fun c hc hpc => better_best hcomp hc hpc
    · rename_i hright
      split
      · rename_i hleft
        have hps : parent (2 * i + 1) = i := (parent_eq_iff (Nat.succ_pos _)).mpr (.inl rfl)
        have hbelow' : Below top (2 * i + 1) := .child (Nat.succ_pos _) (by rwa [hps])
        have hmoved := h.move (Nat.succ_pos _) hleft hps hbelow fun c hc hpc => by
          rcases (parent_eq_iff hc).mp hpc with rfl | rfl
          · exact compAt_irrefl hcomp _
          · exact compAt_of_le (by omega)
        apply pushUp_heapFrom hcomp (by omega) hbelow'
        apply hmoved.leaf
        rw [length_swap]
        omega
      · rename_i hleft
        exact pushUp_heapFrom hcomp (by omega) hbelow (h.leaf (by omega))

end Order

/-! ### What the standard promises -/

section Standard

variable {comp} {v : List α}

theorem isHeap_nil : IsHeap comp ([] : List α) :=
  fun c _ _ => compAt_of_le (Nat.zero_le c)

/-- The order only depends on how the elements of the vector compare. -/
theorem IsHeap.congr {comp' : α → α → Bool} (h : IsHeap comp v)
    (hcomp : ∀ a ∈ v, ∀ b ∈ v, comp' a b = comp a b) : IsHeap comp' v := by
  intro c hc htop
  have hold := h c hc htop
  by_cases hclen : c < v.length
  · have hplen := (parent_lt hc).trans hclen
    rw [compAt_getElem hplen hclen] at hold ⊢
    rw [hcomp _ (List.getElem_mem hplen) _ (List.getElem_mem hclen)]
    exact hold
  · exact compAt_of_le (not_lt.mp hclen)

/-- Nothing in a heap belongs above the front. -/
theorem IsHeap.front (hcomp : StrictWeak comp) (h : IsHeap comp v) (c : Nat) :
    compAt comp v 0 c = false := by
  induction c using Nat.strongRecOn with
  | ind c ih =>
    rcases Nat.eq_zero_or_pos c with rfl | hc
    · exact compAt_irrefl hcomp 0
    · by_cases hclen : c < v.length
      · have hpc := parent_lt hc
        exact compAt_negTrans hcomp (hpc.trans hclen) (ih (parent c) hpc)
          (h c hc (Nat.zero_le _))
      · exact compAt_of_le (not_lt.mp hclen)

theorem IsHeap.front_le (hcomp : StrictWeak comp) {f : α} {v : List α} (h : IsHeap comp (f :: v))
    {x : α} (hx : x ∈ f :: v) : comp f x = false := by
  obtain ⟨c, hc, rfl⟩ := List.getElem_of_mem hx
  have hfront := h.front hcomp c
  rwa [compAt_getElem (by simp) hc] at hfront

theorem pushHeap_isHeap (hcomp : StrictWeak comp) (h : IsHeap comp v) (x : α) :
    IsHeap comp (pushHeap comp (v ++ [x])) := by
  have hlast : (v ++ [x]).length - 1 = v.length := by simp
  rw [IsHeap, pushHeap, hlast]
  apply pushUp_heapFrom hcomp (by simp) (below_root _)
  constructor
  · intro c hc _ hcv
    rcases Nat.lt_or_gt_of_ne hcv with hlt | hgt
    · have hpc := parent_lt hc
      have hold := h c hc (Nat.zero_le _)
      simpa [compAt, List.getElem?_append_left, hlt, hpc.trans hlt] using hold
    · apply compAt_of_le
      rw [List.length_append, List.length_singleton]
      exact hgt
  · intro _ c hc hpc
    apply compAt_of_le
    have := parent_lt hc
    simp only [List.length_append, List.length_singleton]
    omega

theorem popHeap_isHeap (hcomp : StrictWeak comp) {f : α} {v : List α} (h : IsHeap comp (f :: v)) :
    IsHeap comp (popHeap comp (f :: v)) := by
  rcases List.eq_nil_or_concat v with rfl | ⟨init, last, rfl⟩
  · exact isHeap_nil
  · rw [IsHeap, popHeap]
    have hlen : (swap (f :: init.concat last) 0
        ((f :: init.concat last).length - 1)).dropLast.length = init.length + 1 := by simp
    apply adjust_heapFrom hcomp
    · omega
    · omega
    · exact .self
    · constructor
      · intro c hc _ hc0 hpc0
        by_cases hclen : c < init.length + 1
        · -- away from the front, nothing has moved
          have hpc := parent_lt hc
          have hold := h c hc (Nat.zero_le _)
          have hget : ∀ k, k ≠ 0 → k < init.length + 1 →
              (swap (f :: init.concat last) 0 ((f :: init.concat last).length - 1)).dropLast[k]? =
                (f :: init.concat last)[k]? := by
            intro k hk hklen
            rw [List.getElem?_dropLast, if_pos (by simp; omega), getElem?_swap (by simp) (by simp),
              Equiv.swap_apply_of_ne_of_ne hk (by simp; omega)]
          simpa only [compAt, hget c hc0 hclen, hget (parent c) hpc0 (hpc.trans hclen)] using hold
        · exact compAt_of_le (by omega)
      · intro habsurd
        exact absurd habsurd (Nat.lt_irrefl 0)

/-- Processing the positions downwards from `n` leaves all of them in order. -/
theorem makeHeapFrom_isHeap (hcomp : StrictWeak comp) {n : Nat} (hn : n ≤ v.length)
    (h : HeapFrom comp n v) : IsHeap comp (makeHeapFrom comp n v) := by
  induction n generalizing v with
  | zero => exact h
  | succ n ih =>
    rw [makeHeapFrom]
    apply ih
    · rw [(adjust_perm comp _ _ _ _).length_eq]
      omega
    · apply adjust_heapFrom hcomp (by omega) (by omega) .self
      constructor
      · intro c hc hnc _ hpc
        exact h c hc (by omega)
      · intro habsurd
        exact absurd habsurd (Nat.lt_irrefl n)

theorem makeHeap_isHeap (hcomp : StrictWeak comp) (v : List α) : IsHeap comp (makeHeap comp v) := by
  apply makeHeapFrom_isHeap hcomp (Nat.div_le_self _ _)
  intro c hc hpc
  apply compAt_of_le
  simp only [parent] at hpc
  omega

/-- An implementation of the three functions for one comparison, with what the
standard promises of it. `push_heap` and `pop_heap` ask for a heap. -/
structure StdHeap (comp : α → α → Bool) where
  pushHeap : List α → List α
  popHeap : List α → List α
  makeHeap : List α → List α
  push_spec : ∀ {v}, IsHeap comp v → ∀ x,
    (pushHeap (v ++ [x])).Perm (v ++ [x]) ∧ IsHeap comp (pushHeap (v ++ [x]))
  pop_spec : ∀ {x v}, IsHeap comp (x :: v) →
    ∃ w, popHeap (x :: v) = w ++ [x] ∧ w.Perm v ∧ IsHeap comp w
  make_spec : ∀ v, (makeHeap v).Perm v ∧ IsHeap comp (makeHeap v)

/-- The functions of this file. -/
def libstdcxx (hcomp : StrictWeak comp) : StdHeap comp where
  pushHeap := pushHeap comp
  popHeap
    | [] => []
    | x :: v => popHeap comp (x :: v) ++ [x]
  makeHeap := makeHeap comp
  push_spec h x :=
    ⟨(pushHeap_perm comp _ x).trans (List.perm_append_singleton x _).symm,
      pushHeap_isHeap hcomp h x⟩
  pop_spec h := ⟨_, rfl, popHeap_perm comp _ _, popHeap_isHeap hcomp h⟩
  make_spec v := ⟨makeHeap_perm comp v, makeHeap_isHeap hcomp v⟩

end Standard

end Lib.Heap
