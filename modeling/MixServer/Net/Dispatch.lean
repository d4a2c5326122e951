import MixServer.Lib.Run

/-!
`EventLoop::do_select` (`net/eventloop.cpp`) over a whole batch of active
descriptors, for handlers that may do anything to the loop's table meanwhile.

`doSelect` is the code's loop, which looks every descriptor up again and asserts
that it finds a handle. `skipping` says what dispatching a batch is for: only the
handles that were registered when the batch was collected and still are get an
event, the others are passed over. `dispatch_iff` says exactly when the two are
the same.
-/

namespace MixServer.Net

open Lib

variable {σ η ε χ : Type}

/-- What an event loop dispatches to: the table of handles, and `handle_event`
of a handle for what the selector has reported. -/
structure Handlers (σ η ε χ : Type) where
  handles : σ → Nat → Option η
  handleEvent : η → ε → σ → Except χ σ

/-- Why a dispatch stops: the assertion of `do_select`, or a failure within a
handler. -/
inductive Stop (σ χ : Type) where
  | assertion (s : σ)
  | handler (x : χ)

/-- The `handle_event` calls made: the descriptor, the handle and the events. -/
abbrev Calls (η ε : Type) := List (Nat × η × ε)

namespace Handlers

variable (S : Handlers σ η ε χ)

/-- One call of `handle_event`. -/
def call (h : η) (d : σ × Calls η ε) (e : Nat × ε) :
    Except (Stop σ χ × Calls η ε) (σ × Calls η ε) :=
  let calls := d.2 ++ [(e.1, h, e.2)]
  match S.handleEvent h e.2 d.1 with
  | .ok s => .ok (s, calls)
  | .error x => .error (.handler x, calls)

/-- The body of the loop in `EventLoop::do_select`. -/
def turn (d : σ × Calls η ε) (e : Nat × ε) : Except (Stop σ χ × Calls η ε) (σ × Calls η ε) :=
  match S.handles d.1 e.1 with
  | none => .error (.assertion d.1, d.2)
  | some h => S.call h d e

/-- `EventLoop::do_select`, for the batch the selector has reported. -/
def doSelect (s : σ) (batch : List (Nat × ε)) : Except (Stop σ χ × Calls η ε) (σ × Calls η ε) :=
  exec S.turn (s, []) batch

variable [DecidableEq η]

/-- A turn that only serves the handle in `table`, if it is still registered. -/
def skipTurn (table : Nat → Option η) (d : σ × Calls η ε) (e : Nat × ε) :
    Except (Stop σ χ × Calls η ε) (σ × Calls η ε) :=
  match table e.1 with
  | none => .ok d
  | some h => if S.handles d.1 e.1 = some h then S.call h d e else .ok d

/-- Dispatching to the handles registered when the batch is collected, as long
as they are. -/
def skipping (s : σ) (batch : List (Nat × ε)) : Except (Stop σ χ × Calls η ε) (σ × Calls η ε) :=
  exec (S.skipTurn (S.handles s)) (s, []) batch

variable {S} {table : Nat → Option η} {d : σ × Calls η ε} {batch : List (Nat × ε)}

/-! ### What is called -/

omit [DecidableEq η] in
/-- A call is recorded, also if it fails. -/
theorem call_calls (h : η) (e : Nat × ε) :
    Ensures (S.call h d e) (fun d' => d'.2 = d.2 ++ [(e.1, h, e.2)])
      fun x => x.2 = d.2 ++ [(e.1, h, e.2)] ∧ ∀ s, x.1 ≠ .assertion s := by
  simp only [call]
  split
  · rfl
  · exact ⟨rfl, fun s => by simp⟩

omit [DecidableEq η] in
/-- Calls already made stay on record. -/
theorem turns_extend (d : σ × Calls η ε) (batch : List (Nat × ε)) :
    Ensures (exec S.turn d batch) (fun d' => d.2 <+: d'.2) fun x => d.2 <+: x.2 := by
  apply exec_ensures (I := fun d' : σ × Calls η ε => d.2 <+: d'.2) _ (List.prefix_refl d.2)
  intro d' e hd'
  simp only [turn]
  split
  · exact hd'
  · rename_i h _
    apply (call_calls h e).mono
    · intro d'' hcalls
      rw [hcalls]
      exact hd'.trans (List.prefix_append _ _)
    · rintro x ⟨hcalls, -⟩
      rw [hcalls]
      exact hd'.trans (List.prefix_append _ _)

/-- Every call goes to the handle the table holds. -/
def FromTable (table : Nat → Option η) (before after : Calls η ε) : Prop :=
  ∃ more, after = before ++ more ∧ ∀ c ∈ more, table c.1 = some c.2.1

theorem skipTurns_spec (d : σ × Calls η ε) (batch : List (Nat × ε)) :
    Ensures (exec (S.skipTurn table) d batch) (fun d' => FromTable table d.2 d'.2)
      fun x => FromTable table d.2 x.2 ∧ ∀ s, x.1 ≠ .assertion s := by
  have hstart : FromTable table d.2 d.2 := ⟨[], (List.append_nil _).symm, by simp⟩
  apply exec_ensures (I := fun d' : σ × Calls η ε => FromTable table d.2 d'.2) _ hstart
  rintro d' e ⟨more, hmore, htable⟩
  simp only [skipTurn]
  split
  · exact ⟨more, hmore, htable⟩
  · rename_i h he
    split
    · have hnext : FromTable table d.2 (d'.2 ++ [(e.1, h, e.2)]) := by
        refine ⟨more ++ [(e.1, h, e.2)], ?_, ?_⟩
        · rw [hmore, List.append_assoc]
        · intro c hc
          rcases List.mem_append.mp hc with hc | hc
          · exact htable c hc
          · obtain rfl := List.mem_singleton.mp hc
            exact he
      apply (call_calls h e).mono
      · intro d'' hcalls
        rwa [hcalls]
      · rintro x ⟨hcalls, hne⟩
        exact ⟨by rwa [hcalls], hne⟩
    · exact ⟨more, hmore, htable⟩

/-! ### The two loops -/

/-- The handle that was registered for the entry's descriptor still is. -/
def StillRegistered (S : Handlers σ η ε χ) (table : Nat → Option η) (d : σ × Calls η ε)
    (e : Nat × ε) : Prop :=
  S.handles d.1 e.1 = table e.1

/-- With the handle still registered, the two turns are the same. -/
theorem turn_eq_skipTurn {e : Nat × ε} (he : (table e.1).isSome)
    (h : StillRegistered S table d e) : S.turn d e = S.skipTurn table d e := by
  obtain ⟨h₀, hh₀⟩ := Option.isSome_iff_exists.mp he
  rw [StillRegistered, hh₀] at h
  simp only [turn, skipTurn, hh₀, h, if_true]

/-- With the handle gone or replaced, the code's loop fails its assertion or
makes a call that the other loop never makes. -/
theorem turns_ne_skipTurns {e : Nat × ε} (h : ¬ StillRegistered S table d e) :
    exec S.turn d (e :: batch) ≠ exec (S.skipTurn table) d (e :: batch) := by
  intro heq
  have hskip : Ensures (exec (S.skipTurn table) d (e :: batch))
      (fun d' => FromTable table d.2 d'.2)
      fun x => FromTable table d.2 x.2 ∧ ∀ s, x.1 ≠ .assertion s := skipTurns_spec d _
  rw [← heq] at hskip
  cases hlookup : S.handles d.1 e.1 with
  | none =>
    have hturn : S.turn d e = .error (.assertion d.1, d.2) := by simp only [turn, hlookup]
    rw [exec_cons_error hturn] at hskip
    exact hskip.2 d.1 rfl
  | some h' =>
    have hturn : S.turn d e = S.call h' d e := by simp only [turn, hlookup]
    -- the call the code makes goes to a handle that the table does not hold
    have hforeign : ∀ {after : Calls η ε}, d.2 ++ [(e.1, h', e.2)] <+: after →
        ¬ FromTable table d.2 after := by
      rintro after ⟨rest, rfl⟩ ⟨more, hmore, htable⟩
      rw [List.append_assoc] at hmore
      obtain rfl := List.append_cancel_left hmore
      have := htable (e.1, h', e.2) (by simp)
      exact h (hlookup.trans this.symm)
    have hcall := call_calls (S := S) (d := d) h' e
    cases hresult : S.call h' d e with
    | error x =>
      rw [exec_cons_error (hturn.trans hresult)] at hskip
      have hcalls := (hcall.of_error hresult).1
      exact hforeign (by rw [hcalls]) hskip.1
    | ok d' =>
      rw [exec_cons_ok (hturn.trans hresult)] at hskip
      have hcalls := hcall.of_ok hresult
      have hextend := turns_extend (S := S) d' batch
      rw [hcalls] at hextend
      cases hrest : exec S.turn d' batch with
      | error x =>
        rw [hrest] at hskip hextend
        exact hforeign hextend hskip.1
      | ok d'' =>
        rw [hrest] at hskip hextend
        exact hforeign hextend hskip

theorem turns_iff (hbatch : ∀ e ∈ batch, (table e.1).isSome) (d : σ × Calls η ε) :
    exec S.turn d batch = exec (S.skipTurn table) d batch ↔
      Every S.turn (StillRegistered S table) d batch := by
  induction batch generalizing d with
  | nil => simp
  | cons e batch ih =>
    by_cases h : StillRegistered S table d e
    · have hsame := turn_eq_skipTurn (hbatch e List.mem_cons_self) h
      have hrest := fun e' he' => hbatch e' (List.mem_cons_of_mem e he')
      cases hturn : S.turn d e with
      | error x =>
        rw [exec_cons_error hturn, exec_cons_error (hsame ▸ hturn), every_cons_error hturn]
        exact ⟨fun _ => h, fun _ => rfl⟩
      | ok d' =>
        rw [exec_cons_ok hturn, exec_cons_ok (hsame ▸ hturn), every_cons_ok hturn, ih hrest]
        exact ⟨fun hd' => ⟨h, hd'⟩, fun hd' => hd'.2⟩
    · exact ⟨fun heq => absurd heq (turns_ne_skipTurns h), fun hevery => absurd hevery.1 h⟩

/-- **Dispatch skips the handles that are gone**, without failing its assertion,
exactly when none of the batch's handles is gone at its turn. -/
theorem dispatch_iff (S : Handlers σ η ε χ) {s : σ} {batch : List (Nat × ε)}
    (hbatch : ∀ e ∈ batch, (S.handles s e.1).isSome) :
    S.doSelect s batch = S.skipping s batch ↔
      Every S.turn (StillRegistered S (S.handles s)) (s, []) batch :=
  turns_iff hbatch (s, [])

end Handlers

end MixServer.Net
