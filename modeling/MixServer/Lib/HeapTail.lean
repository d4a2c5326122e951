import MixServer.Lib.Heap
import Mathlib.Data.List.GetD
import Mathlib.Data.List.Induction
import Mathlib.Data.List.Sort
import Mathlib.Data.List.Nodup

/-!
A heap built over the tail of another one.

`make_heap` on the range from position `i` on arranges those elements as a heap
of their own, with positions counted from `i`; the parents they have in the whole
vector are others. `Fits` says when this does no harm, by the ranks of the
elements among those of the tail, and `fits_iff` that it says exactly that: the
whole vector stays a heap however the tail is arranged as a heap.

* `level_le_countP` and `countP_add_under_le` bound from below how many elements of a
  heap do not come after the one at a position, and how many do not come before.
* `arrange` shows that nothing more is true of all heaps: the elements on the way
  to one position may be the first ones and those under another the last ones.
-/

namespace Lib.Heap

variable {α : Type*}

/-! ### The way to the root -/

/-- The positions from `i` up to the root, at most so many moves. -/
def climb : Nat → Nat → List Nat
  | 0, i => [i]
  | moves + 1, i => if i = 0 then [0] else i :: climb moves (parent i)

/-- The positions from `i` up to the root. -/
def path (i : Nat) : List Nat := climb i i

/-- The number of positions from `i` up to the root. -/
def level (i : Nat) : Nat := (path i).length

/-- The positions at `g` and under it, in a vector of length `n`. -/
def under (g n : Nat) : List Nat := (List.range n).filter fun c => g ∈ path c

theorem climb_eq {moves i : Nat} (hi : i ≤ moves) : climb moves i = path i := by
  induction i using Nat.strongRecOn generalizing moves with
  | ind i ih =>
    rcases Nat.eq_zero_or_pos i with rfl | hpos
    · cases moves <;> rfl
    · have hp := parent_lt hpos
      obtain ⟨moves, rfl⟩ := Nat.exists_eq_succ_of_ne_zero (hpos.trans_le hi).ne'
      obtain ⟨j, rfl⟩ := Nat.exists_eq_succ_of_ne_zero hpos.ne'
      rw [path, climb, climb, ih _ hp (by omega), ih _ hp (by omega)]

theorem path_of_pos {i : Nat} (hi : 0 < i) : path i = i :: path (parent i) := by
  obtain ⟨j, rfl⟩ := Nat.exists_eq_succ_of_ne_zero hi.ne'
  have hp := parent_lt hi
  rw [path, climb, if_neg (Nat.succ_ne_zero j), climb_eq (by omega)]

theorem self_mem_path (i : Nat) : i ∈ path i := by
  rcases Nat.eq_zero_or_pos i with rfl | hi
  · exact List.mem_singleton.mpr rfl
  · rw [path_of_pos hi]
    exact List.mem_cons_self

theorem mem_path_of_pos {i j : Nat} (hi : 0 < i) : j ∈ path i ↔ j = i ∨ j ∈ path (parent i) := by
  rw [path_of_pos hi, List.mem_cons]

theorem le_of_mem_path {i j : Nat} (h : j ∈ path i) : j ≤ i := by
  induction i using Nat.strongRecOn with
  | ind i ih =>
    rcases Nat.eq_zero_or_pos i with rfl | hi
    · rw [List.mem_singleton.mp h]
    · rcases (mem_path_of_pos hi).mp h with rfl | h
      · exact Nat.le_refl _
      · exact (ih _ (parent_lt hi) h).trans (parent_lt hi).le

/-- The parent of a position on the way is on the way. -/
theorem parent_mem_path {i j : Nat} (h : j ∈ path i) (hj : 0 < j) : parent j ∈ path i := by
  induction i using Nat.strongRecOn with
  | ind i ih =>
    rcases Nat.eq_zero_or_pos i with rfl | hi
    · rw [List.mem_singleton.mp h] at hj
      exact absurd hj (Nat.lt_irrefl 0)
    · rw [mem_path_of_pos hi] at h ⊢
      rcases h with rfl | h
      · exact .inr (self_mem_path _)
      · exact .inr (ih _ (parent_lt hi) h)

/-- What is on the way to a position on the way is on the way. -/
theorem mem_path_trans {i j g : Nat} (hj : j ∈ path i) (hg : g ∈ path j) : g ∈ path i := by
  induction j using Nat.strongRecOn with
  | ind j ih =>
    rcases Nat.eq_zero_or_pos j with rfl | hpos
    · rwa [List.mem_singleton.mp hg]
    · rcases (mem_path_of_pos hpos).mp hg with rfl | hg
      · exact hj
      · exact ih _ (parent_lt hpos) (parent_mem_path hj hpos) hg

theorem pairwise_path (i : Nat) : (path i).Pairwise (· > ·) := by
  induction i using Nat.strongRecOn with
  | ind i ih =>
    rcases Nat.eq_zero_or_pos i with rfl | hi
    · exact List.pairwise_singleton _ _
    · rw [path_of_pos hi, List.pairwise_cons]
      refine ⟨?_, ih _ (parent_lt hi)⟩
      intro j hj
      exact (le_of_mem_path hj).trans_lt (parent_lt hi)

theorem nodup_path (i : Nat) : (path i).Nodup := (pairwise_path i).imp ne_of_gt

theorem level_pos (i : Nat) : 0 < level i := List.length_pos_of_mem (self_mem_path i)

/-! ### What every heap has -/

section Ranks

variable {comp : α → α → Bool} {v : List α}

theorem compAt_eq {p c : Nat} {a b : α} (ha : v[p]? = some a) (hb : v[c]? = some b) :
    compAt comp v p c = comp a b := by
  simp only [compAt, ha, hb]

/-- Nothing on the way from a position to the root is below it. -/
theorem IsHeap.compAt_path (hcomp : StrictWeak comp) (h : IsHeap comp v) {i j : Nat}
    (hj : j ∈ path i) : compAt comp v j i = false := by
  induction i using Nat.strongRecOn with
  | ind i ih =>
    rcases Nat.eq_zero_or_pos i with rfl | hi
    · rw [List.mem_singleton.mp hj]
      exact compAt_irrefl hcomp 0
    · rcases (mem_path_of_pos hi).mp hj with rfl | hj
      · exact compAt_irrefl hcomp _
      · by_cases hlen : i < v.length
        · have hp := parent_lt hi
          exact compAt_negTrans hcomp (hp.trans hlen) (ih _ hp hj) (h i hi (Nat.zero_le _))
        · exact compAt_of_le (not_lt.mp hlen)

/-- Elements are counted by their positions. -/
theorem countP_eq_length_filter (p : α → Bool) (v : List α) :
    v.countP p = ((List.range v.length).filter fun i => v[i]?.any p).length := by
  induction v using List.reverseRecOn with
  | nil => rfl
  | append_singleton v x ih =>
    have hsame : (List.range v.length).filter (fun i => (v ++ [x])[i]?.any p) =
        (List.range v.length).filter fun i => v[i]?.any p := by
      apply List.filter_congr
      intro i hi
      rw [List.getElem?_append_left (List.mem_range.mp hi)]
    rw [List.length_append, List.length_singleton, List.range_succ, List.filter_append, hsame,
      List.length_append, ← ih, List.countP_append]
    cases hx : p x <;> simp [hx]

/-- Distinct positions whose elements satisfy `p` are at most as many as there
are such elements. -/
theorem length_le_countP {p : α → Bool} {positions : List Nat} (hnodup : positions.Nodup)
    (hp : ∀ i ∈ positions, ∃ x, v[i]? = some x ∧ p x = true) : positions.length ≤ v.countP p := by
  rw [countP_eq_length_filter]
  apply (List.subperm_of_subset hnodup ?_).length_le
  intro i hi
  obtain ⟨x, hx, hpx⟩ := hp i hi
  obtain ⟨hlen, -⟩ := List.getElem?_eq_some_iff.mp hx
  rw [List.mem_filter, List.mem_range, hx]
  exact ⟨hlen, hpx⟩

/-- Below `y` there are all positions from one whose element is below `y` up to
the root. -/
theorem level_le_countP (hcomp : StrictWeak comp) (h : IsHeap comp v) {k : Nat} {x y : α}
    (hx : v[k]? = some x) (hxy : comp y x = true) : level k ≤ v.countP (comp y) := by
  apply length_le_countP (nodup_path k)
  intro j hj
  obtain ⟨hk, rfl⟩ := List.getElem?_eq_some_iff.mp hx
  have hjk := (le_of_mem_path hj).trans_lt hk
  have hpath := h.compAt_path hcomp hj
  rw [compAt_getElem hjk hk] at hpath
  refine ⟨v[j], List.getElem?_eq_getElem hjk, ?_⟩
  by_contra hn
  rw [Bool.not_eq_true] at hn
  rw [hcomp.negTrans hn hpath] at hxy
  cases hxy

/-- Not below the element at `g` are all positions at `g` and under it. -/
theorem countP_add_under_le (hcomp : StrictWeak comp) (h : IsHeap comp v) {g : Nat} {y : α}
    (hy : v[g]? = some y) : v.countP (comp y) + (under g v.length).length ≤ v.length := by
  have hsum := v.length_eq_countP_add_countP (comp y)
  suffices hunder : (under g v.length).length ≤ v.countP fun x => ¬ comp y x = true by omega
  apply length_le_countP (List.nodup_range.filter _)
  intro c hc
  obtain ⟨hlen, hg⟩ := List.mem_filter.mp hc
  rw [List.mem_range] at hlen
  obtain ⟨hglen, rfl⟩ := List.getElem?_eq_some_iff.mp hy
  have hpath := h.compAt_path hcomp (of_decide_eq_true hg)
  rw [compAt_getElem hglen hlen] at hpath
  refine ⟨v[c], List.getElem?_eq_getElem hlen, ?_⟩
  simp [hpath]

end Ranks

/-! ### What some heap has -/

/-- The positions on the way to `k` come first and those under `g` last. -/
def order (k g n : Nat) : List Nat :=
  (path k).reverse ++ ((List.range n).filter (fun c => c ∉ path k ∧ g ∉ path c) ++ under g n)

/-- A vector of the elements of `s`, which are laid down in that order. -/
def arrange (k g : Nat) (s : List α) (d : α) : List α :=
  (List.range s.length).map fun c => s.getD ((order k g s.length).idxOf c) d

section Arrange

variable {k g n : Nat}

theorem mem_under {c : Nat} : c ∈ under g n ↔ c < n ∧ g ∈ path c := by
  simp [under]

theorem mem_order (hk : k < n) {c : Nat} : c ∈ order k g n ↔ c < n := by
  simp only [order, List.mem_append, List.mem_reverse, List.mem_filter, List.mem_range, mem_under,
    decide_eq_true_eq]
  constructor
  · rintro (h | h | h)
    · exact (le_of_mem_path h).trans_lt hk
    · exact h.1
    · exact h.1
  · intro hc
    by_cases hpath : c ∈ path k
    · exact .inl hpath
    · by_cases hg : g ∈ path c
      · exact .inr (.inr ⟨hc, hg⟩)
      · exact .inr (.inl ⟨hc, hpath, hg⟩)

/-- No position comes after itself or before its parent. -/
theorem order_pairwise (hgk : g ∉ path k) :
    (order k g n).Pairwise fun a b => a ≠ b ∧ (0 < a → parent a ≠ b) := by
  have hrange : ∀ p : Nat → Bool,
      ((List.range n).filter p).Pairwise fun a b => a ≠ b ∧ (0 < a → parent a ≠ b) := by
    intro p
    apply (List.pairwise_lt_range.filter p).imp
    intro a b hab
    exact ⟨hab.ne, fun ha => ((parent_lt ha).trans hab).ne⟩
  rw [order, List.pairwise_append, List.pairwise_append]
  refine ⟨?_, ⟨hrange _, hrange _, ?_⟩, ?_⟩
  · rw [List.pairwise_reverse]
    apply (pairwise_path k).imp
    intro a b hab
    exact ⟨hab.ne, fun hb => ((parent_lt hb).trans hab).ne⟩
  · intro a ha b hb
    obtain ⟨-, hb⟩ := mem_under.mp hb
    have ha' : g ∉ path a := by simpa using (List.mem_filter.mp ha).2 |> of_decide_eq_true |>.2
    refine ⟨?_, ?_⟩
    · rintro rfl
      exact ha' hb
    · rintro hpos rfl
      exact ha' ((mem_path_of_pos hpos).mpr (.inr hb))
  · intro a ha b hb
    rw [List.mem_reverse] at ha
    have hb' : b ∉ path k := by
      rcases List.mem_append.mp hb with hb | hb
      · exact (of_decide_eq_true (List.mem_filter.mp hb).2).1
      · exact fun hbk => hgk (mem_path_trans hbk (mem_under.mp hb).2)
    refine ⟨?_, ?_⟩
    · rintro rfl
      exact hb' ha
    · rintro hpos rfl
      exact hb' (parent_mem_path ha hpos)

theorem order_perm (hk : k < n) (hgk : g ∉ path k) : (order k g n).Perm (List.range n) := by
  rw [List.perm_ext_iff_of_nodup ((order_pairwise hgk).imp And.left) List.nodup_range]
  intro c
  rw [mem_order hk, List.mem_range]

variable {comp : α → α → Bool} {s : List α} {d : α}

theorem arrange_perm (hk : k < s.length) (hgk : g ∉ path k) : (arrange k g s d).Perm s := by
  have hperm := order_perm (g := g) hk hgk
  have hlen : (order k g s.length).length = s.length := by
    rw [hperm.length_eq, List.length_range]
  have hnodup : (order k g s.length).Nodup := (order_pairwise hgk).imp And.left
  have hmap : (order k g s.length).map (fun c => s.getD ((order k g s.length).idxOf c) d) = s := by
    apply List.ext_getElem
    · rw [List.length_map, hlen]
    · intro j hj hj'
      rw [List.getElem_map, hnodup.idxOf_getElem, List.getD_eq_getElem _ _ hj']
  have hmoved : (arrange k g s d).Perm
      ((order k g s.length).map fun c => s.getD ((order k g s.length).idxOf c) d) :=
    hperm.symm.map _
  rwa [hmap] at hmoved

/-- The element at `c` is the one whose turn it is. -/
theorem arrange_getElem? (hk : k < s.length) (hgk : g ∉ path k) {j c : Nat}
    (hc : (order k g s.length)[j]? = some c) : (arrange k g s d)[c]? = s[j]? := by
  obtain ⟨hj, rfl⟩ := List.getElem?_eq_some_iff.mp hc
  have hnodup : (order k g s.length).Nodup := (order_pairwise hgk).imp And.left
  have hlen : (order k g s.length)[j] < s.length := (mem_order hk).mp (List.getElem_mem hj)
  have hj' : j < s.length := by
    rwa [(order_perm hk hgk).length_eq, List.length_range] at hj
  rw [arrange, List.getElem?_map, List.getElem?_range hlen, Option.map_some, hnodup.idxOf_getElem,
    List.getD_eq_getElem _ _ hj', List.getElem?_eq_getElem hj']

theorem arrange_isHeap (hk : k < s.length) (hgk : g ∉ path k)
    (hsorted : s.Pairwise fun a b => comp a b = false) : IsHeap comp (arrange k g s d) := by
  intro c hc _
  have hp := parent_lt hc
  by_cases hlen : c < s.length
  · obtain ⟨i, hi, hic⟩ := List.getElem_of_mem ((mem_order (g := g) hk).mpr (hp.trans hlen))
    obtain ⟨j, hj, hjc⟩ := List.getElem_of_mem ((mem_order (g := g) hk).mpr hlen)
    have hij : i < j := by
      rcases Nat.lt_trichotomy i j with hlt | rfl | hgt
      · exact hlt
      · exact absurd (hic.symm.trans hjc) hp.ne
      · have hpairs := List.pairwise_iff_getElem.mp (order_pairwise (n := s.length) hgk)
        have hbefore := hpairs j i hj hi hgt
        rw [hic, hjc] at hbefore
        exact absurd rfl (hbefore.2 hc)
    have hlenOrder : (order k g s.length).length = s.length := by
      rw [(order_perm hk hgk).length_eq, List.length_range]
    have hgetp := arrange_getElem? (d := d) hk hgk (List.getElem?_eq_some_iff.mpr ⟨hi, hic⟩)
    have hgetc := arrange_getElem? (d := d) hk hgk (List.getElem?_eq_some_iff.mpr ⟨hj, hjc⟩)
    rw [hlenOrder] at hi hj
    rw [compAt_eq (hgetp.trans (List.getElem?_eq_getElem hi))
      (hgetc.trans (List.getElem?_eq_getElem hj))]
    exact List.pairwise_iff_getElem.mp hsorted i j _ _ hij
  · apply compAt_of_le
    rw [(arrange_perm hk hgk).length_eq]
    exact not_lt.mp hlen

/-- The last element on the way to `k`. -/
theorem arrange_low (hk : k < s.length) (hgk : g ∉ path k) :
    (arrange k g s d)[k]? = s[level k - 1]? := by
  apply arrange_getElem? hk hgk
  have hlast : (path k).reverse.getLast? = some k := by
    rcases Nat.eq_zero_or_pos k with rfl | hpos
    · rfl
    · rw [path_of_pos hpos, List.reverse_cons, List.getLast?_concat]
  have hlevel := level_pos k
  rw [order, List.getElem?_append_left
    (by rw [List.length_reverse]; exact Nat.sub_lt hlevel one_pos)]
  rw [List.getLast?_eq_getElem?, List.length_reverse] at hlast
  exact hlast

/-- The first element at `g` and under it. -/
theorem arrange_high (hk : k < s.length) (hgk : g ∉ path k) (hg : g < s.length) :
    (arrange k g s d)[g]? = s[s.length - (under g s.length).length]? := by
  apply arrange_getElem? hk hgk
  have hfirst : (under g s.length)[0]? = some g := by
    obtain ⟨rest, hrest⟩ := Nat.exists_eq_add_of_lt hg
    have hsplit : List.range s.length = List.range g ++ g :: List.range' (g + 1) rest := by
      rw [hrest, List.range_eq_range', List.range_eq_range', Nat.add_assoc, ← List.range'_append_1,
        Nat.zero_add, List.range'_succ]
    have hnone : (List.range g).filter (fun c => g ∈ path c) = [] := by
      rw [List.filter_eq_nil_iff]
      intro c hc hmem
      exact absurd (le_of_mem_path (of_decide_eq_true hmem)) (not_le.mpr (List.mem_range.mp hc))
    have hself : decide (g ∈ path g) = true := decide_eq_true (self_mem_path g)
    rw [under, hsplit, List.filter_append, hnone, List.nil_append, List.filter_cons, if_pos hself]
    rfl
  have hlen := (order_perm (g := g) hk hgk).length_eq
  rw [List.length_range, order, ← List.append_assoc, List.length_append] at hlen
  rw [order, ← List.append_assoc, List.getElem?_append_right (by omega)]
  rw [show s.length - (under g s.length).length -
    ((path k).reverse ++ (List.range s.length).filter
      (fun c => c ∉ path k ∧ g ∉ path c)).length = 0 by omega]
  exact hfirst

end Arrange

/-! ### Ranks in a sorted list -/

/-- In a sorted list, what comes early enough is what comes first. -/
theorem getElem_iff_lt_countP {p : α → Bool} {s : List α}
    (hs : s.Pairwise fun a b => p b = true → p a = true) {j : Nat} (hj : j < s.length) :
    p s[j] = true ↔ j < s.countP p := by
  induction s generalizing j with
  | nil => exact absurd hj (Nat.not_lt_zero j)
  | cons a s ih =>
    obtain ⟨ha, hs⟩ := List.pairwise_cons.mp hs
    by_cases hpa : p a = true
    · rw [List.countP_cons_of_pos hpa]
      cases j with
      | zero => exact ⟨fun _ => Nat.succ_pos _, fun _ => hpa⟩
      | succ j => rw [List.getElem_cons_succ, ih hs, Nat.succ_lt_succ_iff]
    · have hnone : s.countP p = 0 := by
        rw [List.countP_eq_zero]
        exact fun b hb hpb => hpa (ha b hb hpb)
      rw [List.countP_cons_of_neg hpa, hnone]
      refine ⟨fun hp => absurd hp ?_, fun hlt => absurd hlt (Nat.not_lt_zero j)⟩
      cases j with
      | zero => exact hpa
      | succ j => exact fun hp => hpa (ha _ (List.getElem_mem _) hp)

section Exists

variable {comp : α → α → Bool} {t : List α} {k g : Nat} {y : α}

/-- The elements in order. -/
theorem exists_sorted (hcomp : StrictWeak comp) (t : List α) :
    ∃ s : List α, s.Perm t ∧ s.Pairwise fun a b => comp a b = false := by
  refine ⟨t.mergeSort fun a b => !comp a b, List.mergeSort_perm t _, ?_⟩
  have hsorted : (t.mergeSort fun a b => !comp a b).Pairwise fun a b => !comp a b :=
    List.pairwise_mergeSort ?_ ?_ t
  · exact hsorted.imp fun h => by simpa using h
  · intro a b c hab hbc
    simp only [Bool.not_eq_true'] at hab hbc ⊢
    exact hcomp.negTrans hab hbc
  · intro a b
    cases hab : comp a b with
    | false => rfl
    | true => simp [hcomp.asymm hab]

theorem below_of_sorted (hcomp : StrictWeak comp) {s : List α}
    (hs : s.Pairwise fun a b => comp a b = false) (y : α) :
    s.Pairwise fun a b => comp y b = true → comp y a = true := by
  apply hs.imp
  intro a b hab hb
  by_contra hn
  rw [Bool.not_eq_true] at hn
  rw [hcomp.negTrans hn hab] at hb
  cases hb

/-- With as many elements below `y` as there are positions from `k` to the root,
some heap has one of them at `k`; with enough others, it has one of these at `g`. -/
theorem exists_heap (hcomp : StrictWeak comp) (hk : k < t.length) (hgk : g ∉ path k)
    (hy : level k ≤ t.countP (comp y)) :
    ∃ w, w.Perm t ∧ IsHeap comp w ∧ (∃ x, w[k]? = some x ∧ comp y x = true) ∧
      (g < t.length → t.countP (comp y) + (under g t.length).length ≤ t.length →
        ∃ x, w[g]? = some x ∧ comp y x = false) := by
  obtain ⟨s, hperm, hsorted⟩ := exists_sorted hcomp t
  have hbelow := below_of_sorted hcomp hsorted y
  have hlevel := level_pos k
  rw [← hperm.countP_eq] at hy
  rw [← hperm.length_eq, ← hperm.countP_eq] at *
  refine ⟨arrange k g s y, (arrange_perm hk hgk).trans hperm, arrange_isHeap hk hgk hsorted, ?_, ?_⟩
  · have hlen : level k - 1 < s.length := by
      have := s.countP_le_length (p := comp y)
      omega
    refine ⟨s[level k - 1], ?_, (getElem_iff_lt_countP hbelow hlen).mpr (by omega)⟩
    rw [arrange_low hk hgk, List.getElem?_eq_getElem hlen]
  · intro hg hmany
    have hself : g ∈ under g s.length := mem_under.mpr ⟨hg, self_mem_path g⟩
    have hpos := List.length_pos_of_mem hself
    have hlen : s.length - (under g s.length).length < s.length := by omega
    refine ⟨s[s.length - (under g s.length).length], ?_, ?_⟩
    · rw [arrange_high hk hgk hg, List.getElem?_eq_getElem hlen]
    · rw [← Bool.not_eq_true, getElem_iff_lt_countP hbelow hlen]
      omega

end Exists

/-! ### The tail of a heap -/

/-- The elements behind position `i`, arranged as a heap from `i` on, fit under
those before `i` and in their own new places: at each position `c`, if its parent
lies before `i`, fewer of them are below the parent than there are positions from
`c` to the root of the tail; and otherwise the parent is above `c` in the tail as
well, or no element can get to the parent with a smaller one at `c`. -/
def Fits (comp : α → α → Bool) (v : List α) (i : Nat) : Prop :=
  ∀ c, c + 1 < v.length → i ≤ c →
    if parent c < i then
      ∀ x ∈ v[parent c]?, (v.drop (i + 1)).countP (comp x) < level (c - i)
    else
      parent c - i ∈ path (c - i) ∨
        ∀ y ∈ v.drop (i + 1), (v.drop (i + 1)).countP (comp y) < level (c - i) ∨
          (v.drop (i + 1)).length < (v.drop (i + 1)).countP (comp y) +
            (under (parent c - i) (v.drop (i + 1)).length).length

instance (comp : α → α → Bool) (v : List α) (i : Nat) : Decidable (Fits comp v i) :=
  decidable_of_iff (∀ c < v.length - 1, i ≤ c →
    if parent c < i then
      ∀ x ∈ v[parent c]?, (v.drop (i + 1)).countP (comp x) < level (c - i)
    else
      parent c - i ∈ path (c - i) ∨
        ∀ y ∈ v.drop (i + 1), (v.drop (i + 1)).countP (comp y) < level (c - i) ∨
          (v.drop (i + 1)).length < (v.drop (i + 1)).countP (comp y) +
            (under (parent c - i) (v.drop (i + 1)).length).length)
    (forall_congr' fun c => imp_congr (by omega) Iff.rfl)

section Tail

variable {comp : α → α → Bool} {v w : List α} {i c : Nat}

/-- A position of the tail, in the vector that the tail is put into. -/
theorem getElem?_tail (hi : i < v.length) (hc : i ≤ c) : (v.take i ++ w)[c]? = w[c - i]? := by
  rw [List.getElem?_append_right (by rw [List.length_take]; omega), List.length_take,
    min_eq_left hi.le]

theorem getElem?_head (hc : c < i) (hi : i < v.length) : (v.take i ++ w)[c]? = v[c]? := by
  rw [List.getElem?_append_left (by rw [List.length_take]; omega), List.getElem?_take, if_pos hc]

theorem Fits.isHeap (hcomp : StrictWeak comp) (h : IsHeap comp v) (hi : i < v.length)
    (hfits : Fits comp v i) (hperm : w.Perm (v.drop (i + 1))) (hw : IsHeap comp w) :
    IsHeap comp (v.take i ++ w) := by
  intro c hc _
  have hp := parent_lt hc
  have hwlen : w.length = v.length - (i + 1) := by rw [hperm.length_eq, List.length_drop]
  by_contra hbad
  rw [Bool.not_eq_false] at hbad
  obtain ⟨-, hlen⟩ := lt_of_compAt hbad
  rw [List.length_append, List.length_take, min_eq_left hi.le, hwlen] at hlen
  rcases Nat.lt_or_ge c i with hci | hic
  · rw [compAt, getElem?_head hci hi, getElem?_head (hp.trans hci) hi] at hbad
    have hold := h c hc (Nat.zero_le _)
    rw [compAt, hbad] at hold
    cases hold
  · have hfit := hfits c (by omega) hic
    have hwc : c - i < w.length := by omega
    have hgetc : (v.take i ++ w)[c]? = some w[c - i] :=
      (getElem?_tail hi hic).trans (List.getElem?_eq_getElem hwc)
    split at hfit
    · rename_i hpi
      rw [compAt_eq ((getElem?_head hpi hi).trans (List.getElem?_eq_getElem (hpi.trans hi)))
        hgetc] at hbad
      have hrank := hfit v[parent c] (by simp [hpi.trans hi])
      have hlevel := level_le_countP hcomp hw (List.getElem?_eq_getElem hwc) hbad
      rw [hperm.countP_eq] at hlevel
      omega
    · rename_i hpi
      have hwp : parent c - i < w.length := by omega
      rw [compAt_eq ((getElem?_tail hi (not_lt.mp hpi)).trans (List.getElem?_eq_getElem hwp))
        hgetc] at hbad
      rcases hfit with hpath | hrank
      · have hgood := hw.compAt_path hcomp hpath
        rw [compAt_getElem hwp hwc, hbad] at hgood
        cases hgood
      · have hlevel := level_le_countP hcomp hw (List.getElem?_eq_getElem hwc) hbad
        have hunder := countP_add_under_le hcomp hw (List.getElem?_eq_getElem hwp)
        rw [hperm.countP_eq] at hlevel hunder
        rw [hperm.length_eq] at hunder
        rcases hrank w[parent c - i] (hperm.subset (List.getElem_mem hwp)) with hlt | hlt
        · omega
        · omega

/-- A tail that need not fit can be arranged so that it does not. -/
theorem exists_not_isHeap (hcomp : StrictWeak comp) (hi : i < v.length)
    (hfits : ¬ Fits comp v i) :
    ∃ w, w.Perm (v.drop (i + 1)) ∧ IsHeap comp w ∧ ¬ IsHeap comp (v.take i ++ w) := by
  have hlen : (v.drop (i + 1)).length = v.length - (i + 1) := List.length_drop
  simp only [Fits, not_forall] at hfits
  obtain ⟨c, hcv, hic, hfit⟩ := hfits
  have hk : c - i < (v.drop (i + 1)).length := by omega
  split at hfit
  · rename_i hpi
    have hc : 0 < c := by
      rcases Nat.eq_zero_or_pos c with rfl | hc
      · exact absurd (hpi.trans_le hic) (Nat.lt_irrefl _)
      · exact hc
    simp only [not_forall] at hfit
    obtain ⟨x, hx, hrank⟩ := hfit
    have hgk : v.length ∉ path (c - i) := fun hmem => by
      have := le_of_mem_path hmem
      omega
    obtain ⟨w, hperm, hw, ⟨z, hz, hxz⟩, -⟩ := exists_heap hcomp hk hgk (not_lt.mp hrank)
    refine ⟨w, hperm, hw, ?_⟩
    intro hheap
    have hgood := hheap c hc (Nat.zero_le _)
    rw [compAt_eq ((getElem?_head hpi hi).trans hx) ((getElem?_tail hi hic).trans hz), hxz] at hgood
    cases hgood
  · rename_i hpi
    rw [not_lt] at hpi
    simp only [not_or, not_forall, not_lt] at hfit
    obtain ⟨hgk, y, -, hlow, hhigh⟩ := hfit
    have hc : 0 < c := by
      rcases Nat.eq_zero_or_pos c with rfl | hc
      · rw [show parent 0 - i = 0 - i by simp [parent]] at hgk
        exact absurd (self_mem_path _) hgk
      · exact hc
    have hp := parent_lt hc
    obtain ⟨w, hperm, hw, ⟨z, hz, hyz⟩, hgetg⟩ := exists_heap hcomp hk hgk hlow
    obtain ⟨x, hx, hyx⟩ := hgetg (by omega) hhigh
    refine ⟨w, hperm, hw, ?_⟩
    intro hheap
    have hgood := hheap c hc (Nat.zero_le _)
    rw [compAt_eq ((getElem?_tail hi hpi).trans hx) ((getElem?_tail hi hic).trans hz)] at hgood
    rw [hcomp.negTrans hyx hgood] at hyz
    cases hyz

/-- **What `Fits` says.** However the elements behind a position of a heap are
arranged as a heap from there on, the whole stays a heap. -/
theorem fits_iff (hcomp : StrictWeak comp) (h : IsHeap comp v) (hi : i < v.length) :
    Fits comp v i ↔
      ∀ w, w.Perm (v.drop (i + 1)) → IsHeap comp w → IsHeap comp (v.take i ++ w) := by
  constructor
  · intro hfits w hperm hw
    exact hfits.isHeap hcomp h hi hperm hw
  · intro hall
    by_contra hfits
    obtain ⟨w, hperm, hw, hbad⟩ := exists_not_isHeap hcomp hi hfits
    exact hbad (hall w hperm hw)

end Tail

end Lib.Heap
