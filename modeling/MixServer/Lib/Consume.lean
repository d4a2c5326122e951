import MixServer.Lib.Bytes

/-!
Loops over a byte string whose body either ends the loop or uses up some of the bytes.

`consume` runs such a loop; that each round makes the string shorter (`Progress`) is why
it ends. `consume_ensures` is the rule for what holds at the end.
-/

namespace Lib

variable {σ ρ : Type*}

/-- Each round that does not end the loop uses up some of the bytes. -/
def Progress (body : σ → Bytes → ρ ⊕ (σ × Bytes)) : Prop :=
  ∀ s bs s' rest, body s bs = .inr (s', rest) → rest.length < bs.length

/-- The loop: a body that gives `.inl r` ends it with `r`. -/
def consume (body : σ → Bytes → ρ ⊕ (σ × Bytes)) (hbody : Progress body) (s : σ) (bs : Bytes) : ρ :=
  match h : body s bs with
  | .inl r => r
  | .inr (s', rest) =>
      have : rest.length < bs.length := hbody _ _ _ _ h
      consume body hbody s' rest
termination_by bs.length

variable {body : σ → Bytes → ρ ⊕ (σ × Bytes)} {hbody : Progress body} {s s' : σ} {bs rest : Bytes}

theorem consume_inl {r : ρ} (h : body s bs = .inl r) : consume body hbody s bs = r := by
  rw [consume]
  split
  · rename_i r' heq
    rw [h] at heq
    cases heq
    rfl
  · rename_i heq
    rw [h] at heq
    cases heq

theorem consume_inr (h : body s bs = .inr (s', rest)) :
    consume body hbody s bs = consume body hbody s' rest := by
  rw [consume]
  split
  · rename_i heq
    rw [h] at heq
    cases heq
  · rename_i s₁ rest₁ heq
    rw [h] at heq
    cases heq
    rfl

/-- What each round keeps holds at the end. -/
theorem consume_ensures {I : σ → Prop} {Q : ρ → Prop}
    (hnext : ∀ s bs s' rest, I s → body s bs = .inr (s', rest) → I s')
    (hend : ∀ s bs r, I s → body s bs = .inl r → Q r) (hs : I s) :
    Q (consume body hbody s bs) := by
  induction hn : bs.length using Nat.strong_induction_on generalizing s bs with
  | _ n ih =>
    cases hround : body s bs with
    | inl r =>
      rw [consume_inl hround]
      exact hend s bs r hs hround
    | inr next =>
      obtain ⟨s', rest⟩ := next
      rw [consume_inr hround]
      exact ih _ (hn ▸ hbody _ _ _ _ hround) (hnext _ _ _ _ hs hround) rfl

end Lib
