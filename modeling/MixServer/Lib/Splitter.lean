import Mathlib.Data.List.Infix
import Mathlib.Tactic.Linarith

/-!
Resumable splitting of a stream.

A `Splitter` takes the first complete item off the front of a list. Its two
laws, every item is shorter than what it was cut from, and bytes that arrive
later never change an item already complete, are what makes reading a stream in
pieces sound: `drain_append` says that draining what has arrived, keeping the
remainder and draining again after more has arrived is the same as draining
everything at once, so the items do not depend on where the stream was cut.
-/

namespace Lib

variable {α β : Type*}

/-- Takes one complete item off the front of a list, if there is one. -/
structure Splitter (α β : Type*) where
  next : List α → Option (β × List α)
  shrinks : ∀ {xs b ys}, next xs = some (b, ys) → ys.length < xs.length
  stable : ∀ {xs b ys} (zs : List α), next xs = some (b, ys) → next (xs ++ zs) = some (b, ys ++ zs)

namespace Splitter

variable (S : Splitter α β)

/-- Items that fill what they are read from are no prefixes of each other. -/
theorem eq_of_prefix {xs ys : List α} {b c : β} (hxs : S.next xs = some (b, []))
    (hys : S.next ys = some (c, [])) (hpre : xs <+: ys) : xs = ys := by
  obtain ⟨zs, rfl⟩ := hpre
  have hrest := S.stable zs hxs
  rw [hys, Option.some_inj, Prod.mk.injEq, List.nil_append] at hrest
  rw [← hrest.2, List.append_nil]

/-- The complete items at the front of `xs`, and the incomplete remainder. -/
def drain (xs : List α) : List β × List α :=
  match h : S.next xs with
  | none => ([], xs)
  | some (b, ys) =>
      have := S.shrinks h
      ((b :: (drain ys).1), (drain ys).2)
termination_by xs.length

theorem drain_of_none {xs : List α} (h : S.next xs = none) : S.drain xs = ([], xs) := by
  rw [drain]
  split
  · rfl
  · rename_i h'
    rw [h] at h'
    cases h'

theorem drain_of_some {xs ys : List α} {b : β} (h : S.next xs = some (b, ys)) :
    S.drain xs = (b :: (S.drain ys).1, (S.drain ys).2) := by
  rw [drain]
  split
  · rename_i h'
    rw [h] at h'
    cases h'
  · rename_i h'
    rw [h] at h'
    cases h'
    rfl

/-- Draining may be interrupted: items already complete are not revised, and
the remainder carries over. -/
theorem drain_append (xs zs : List α) :
    S.drain (xs ++ zs) =
      ((S.drain xs).1 ++ (S.drain ((S.drain xs).2 ++ zs)).1,
        (S.drain ((S.drain xs).2 ++ zs)).2) := by
  induction xs using drain.induct S with
  | case1 xs h => simp [S.drain_of_none h]
  | case2 xs b ys h hlt ih =>
      rw [S.drain_of_some (S.stable zs h), S.drain_of_some h, ih]
      rfl

/-- The items of a prefix begin the items of the whole. -/
theorem drain_fst_prefix (xs zs : List α) : (S.drain xs).1 <+: (S.drain (xs ++ zs)).1 := by
  rw [S.drain_append]
  exact List.prefix_append _ _

/-! ### Stopping at an item -/

/-- What draining up to a stop finds: the items, what follows them, and why it
stopped before the input was exhausted. -/
structure Drained (α β γ : Type*) where
  items : List β
  rest : List α
  stop : Option γ

/-- The complete items at the front of `xs`, up to and including the first at
which `stop` says to stop; `past` are the items found before. -/
def drainUntil {γ : Type*} (stop : List β → Option γ) (past : List β) (xs : List α) :
    Drained α β γ :=
  match h : S.next xs with
  | none => ⟨[], xs, none⟩
  | some (b, ys) =>
      have := S.shrinks h
      match stop (past ++ [b]) with
      | some reason => ⟨[b], ys, some reason⟩
      | none =>
          let d := drainUntil stop (past ++ [b]) ys
          ⟨b :: d.items, d.rest, d.stop⟩
termination_by xs.length

section DrainUntil

variable {S} {γ : Type*} {stop : List β → Option γ} {past : List β} {xs ys : List α} {b : β}

theorem drainUntil_of_none (h : S.next xs = none) : S.drainUntil stop past xs = ⟨[], xs, none⟩ := by
  rw [drainUntil]
  split
  · rfl
  · rename_i h'
    rw [h] at h'
    cases h'

theorem drainUntil_of_some (h : S.next xs = some (b, ys)) :
    S.drainUntil stop past xs =
      match stop (past ++ [b]) with
      | some reason => ⟨[b], ys, some reason⟩
      | none =>
          let d := S.drainUntil stop (past ++ [b]) ys
          ⟨b :: d.items, d.rest, d.stop⟩ := by
  rw [drainUntil]
  split
  · rename_i h'
    rw [h] at h'
    cases h'
  · rename_i h'
    rw [h] at h'
    cases h'
    rfl

theorem drainUntil_of_stop {reason : γ} (h : S.next xs = some (b, ys))
    (hstop : stop (past ++ [b]) = some reason) :
    S.drainUntil stop past xs = ⟨[b], ys, some reason⟩ := by
  rw [drainUntil_of_some h, hstop]

theorem drainUntil_of_go (h : S.next xs = some (b, ys)) (hstop : stop (past ++ [b]) = none) :
    S.drainUntil stop past xs =
      ⟨b :: (S.drainUntil stop (past ++ [b]) ys).items,
        (S.drainUntil stop (past ++ [b]) ys).rest, (S.drainUntil stop (past ++ [b]) ys).stop⟩ := by
  rw [drainUntil_of_some h, hstop]

/-- Without a stop, draining goes on from the rest when more arrives. -/
theorem drainUntil_append_of_go (zs : List α) (hgo : (S.drainUntil stop past xs).stop = none) :
    S.drainUntil stop past (xs ++ zs) =
      let d := S.drainUntil stop past xs
      let d' := S.drainUntil stop (past ++ d.items) (d.rest ++ zs)
      ⟨d.items ++ d'.items, d'.rest, d'.stop⟩ := by
  induction xs using drain.induct S generalizing past with
  | case1 xs h => simp [drainUntil_of_none h]
  | case2 xs b ys h hlt ih =>
      cases hstop : stop (past ++ [b]) with
      | some reason =>
          rw [drainUntil_of_stop h hstop] at hgo
          cases hgo
      | none =>
          rw [drainUntil_of_go h hstop] at hgo ⊢
          rw [drainUntil_of_go (S.stable zs h) hstop, ih hgo]
          simp only [List.append_assoc, List.cons_append, List.nil_append]

/-- After a stop, more input only lengthens the rest. -/
theorem drainUntil_append_of_stop (zs : List α) {reason : γ}
    (hstop : (S.drainUntil stop past xs).stop = some reason) :
    S.drainUntil stop past (xs ++ zs) =
      ⟨(S.drainUntil stop past xs).items, (S.drainUntil stop past xs).rest ++ zs, some reason⟩ := by
  induction xs using drain.induct S generalizing past with
  | case1 xs h =>
      rw [drainUntil_of_none h] at hstop
      cases hstop
  | case2 xs b ys h hlt ih =>
      cases hb : stop (past ++ [b]) with
      | some reason' =>
          rw [drainUntil_of_stop h hb] at hstop ⊢
          cases hstop
          exact drainUntil_of_stop (S.stable zs h) hb
      | none =>
          rw [drainUntil_of_go h hb] at hstop ⊢
          rw [drainUntil_of_go (S.stable zs h) hb, ih hstop]

end DrainUntil

end Splitter

end Lib
