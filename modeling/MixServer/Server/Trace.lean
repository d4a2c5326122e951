import MixServer.Server.TcpServer

/-!
What a method adds to the trace.

A method only appends. `Appends P` says of what: every entry it adds, up to its
return or its abort, satisfies `P`. Closing a connection and the actions of a
script add nothing but `close_connect` entries.
-/

namespace MixServer.Server

open Lib Net

variable {ε : Type} {P : Obs → Prop} {t t' t'' : List Obs}

/-- `t'` is `t` followed by entries that satisfy `P`. -/
def Extends (P : Obs → Prop) (t t' : List Obs) : Prop := ∃ new, t' = t ++ new ∧ ∀ o ∈ new, P o

theorem Extends.refl (P : Obs → Prop) (t : List Obs) : Extends P t t := ⟨[], by simp, by simp⟩

theorem Extends.trans (h : Extends P t t') (h' : Extends P t' t'') : Extends P t t'' := by
  obtain ⟨new, rfl, hnew⟩ := h
  obtain ⟨new', rfl, hnew'⟩ := h'
  refine ⟨new ++ new', List.append_assoc .., ?_⟩
  intro o ho
  rcases List.mem_append.mp ho with ho | ho
  · exact hnew o ho
  · exact hnew' o ho

theorem Extends.single {o : Obs} (ho : P o) (t : List Obs) : Extends P t (t ++ [o]) :=
  ⟨[o], rfl, by simpa using ho⟩

theorem Extends.mono {Q : Obs → Prop} (h : Extends P t t') (hPQ : ∀ o, P o → Q o) :
    Extends Q t t' := by
  obtain ⟨new, rfl, hnew⟩ := h
  exact ⟨new, rfl, fun o ho => hPQ o (hnew o ho)⟩

/-- What was appended, read off the two traces. -/
theorem Extends.drop (h : Extends P t t') : ∀ o ∈ t'.drop t.length, P o := by
  obtain ⟨new, rfl, hnew⟩ := h
  simpa using hnew

/-- A reading of the trace that does not see entries of this kind is unchanged. -/
theorem Extends.filterMap_eq {β : Type} {f : Obs → Option β} (h : Extends P t t')
    (hf : ∀ o, P o → f o = none) : t'.filterMap f = t.filterMap f := by
  obtain ⟨new, rfl, hnew⟩ := h
  rw [List.filterMap_append, List.append_right_eq_self, List.filterMap_eq_nil_iff]
  exact fun o ho => hf o (hnew o ho)

/-- Any reading of the trace only grows. -/
theorem Extends.filterMap_prefix {β : Type} (h : Extends P t t') (f : Obs → Option β) :
    t.filterMap f <+: t'.filterMap f := by
  obtain ⟨new, rfl, -⟩ := h
  rw [List.filterMap_append]
  exact List.prefix_append _ _

/-- The outcome, a return or an abort, only appends entries that satisfy `P`. -/
def Adds (P : Obs → Prop) (t : List Obs) (r : Except Crash (TcpServer ε)) : Prop :=
  Ensures r (fun w' => Extends P t w'.trace) (fun x => Extends P t x.trace)

theorem Extends.adds {r : Except Crash (TcpServer ε)} (h : Extends P t t') (hr : Adds P t' r) :
    Adds P t r :=
  Ensures.mono hr (fun _ => h.trans) (fun _ => h.trans)

theorem Adds.bind {r : Except Crash (TcpServer ε)} {f : Method ε} (hr : Adds P t r)
    (hf : ∀ w', Adds P w'.trace (f w')) : Adds P t (r >>= f) := by
  cases r with
  | error x => exact hr
  | ok w' => exact Extends.adds hr (hf w')

/-- The trace at the end of an outcome. -/
def traceOf : Except Crash (TcpServer ε) → List Obs
  | .ok w => w.trace
  | .error x => x.trace

theorem Adds.extends_traceOf {r : Except Crash (TcpServer ε)} (h : Adds P t r) :
    Extends P t (traceOf r) := by
  cases r with
  | ok w => exact h
  | error x => exact h

/-- From any state the method appends only entries that satisfy `P`. -/
def Appends (P : Obs → Prop) (f : Method ε) : Prop := ∀ w, Adds P w.trace (f w)

theorem Appends.mono {Q : Obs → Prop} {f : Method ε} (h : Appends P f) (hPQ : ∀ o, P o → Q o) :
    Appends Q f := fun w =>
  Ensures.mono (h w) (fun _ hx => hx.mono hPQ) (fun _ hx => hx.mono hPQ)

theorem Appends.at {f : Method ε} (h : Appends P f) {w' : TcpServer ε} (hw : w'.trace = t) :
    Adds P t (f w') := hw ▸ h w'

theorem appends_exec {f : TcpServer ε → Action → Except Crash (TcpServer ε)}
    (h : ∀ w act, Adds P w.trace (f w act)) (acts : List Action) :
    Appends P (fun w => exec f w acts) := by
  intro w
  have hstep : ∀ w' act, Extends P w.trace w'.trace → Adds P w.trace (f w' act) :=
    fun w' act hw' => hw'.adds (h w' act)
  exact exec_ensures hstep (.refl P w.trace) acts

/-! ### The methods of `TcpServer` and `TcpStream` -/

/-- The entries that tearing a connection down makes. -/
def Obs.IsClose (o : Obs) : Prop := ∃ a, o = .closeConnect a

theorem appends_onLoop (f : EventLoop → Except Abort EventLoop) :
    Appends P (TcpServer.onLoop (ε := ε) f) := by
  intro w
  simp only [TcpServer.onLoop]
  cases f w.ploop with
  | ok l => exact .refl P _
  | error c => exact .refl P _

theorem appends_updateEvent (a : Nat) : Appends P (TcpServer.updateEvent (ε := ε) a) :=
  fun w => appends_onLoop _ w

theorem appends_send (a : Nat) (p : Bytes) : Appends P (TcpStream.send (ε := ε) a p) :=
  fun _ => (appends_updateEvent a).at rfl

theorem appends_disableWrite (a : Nat) : Appends P (TcpStream.disableWrite (ε := ε) a) :=
  fun _ => (appends_updateEvent a).at rfl

theorem appends_closeConnect (a : Nat) :
    Appends Obs.IsClose (TcpServer.closeConnect (ε := ε) a) := by
  intro w
  refine (Extends.single ⟨a, rfl⟩ w.trace : Extends _ _ (w.log (.closeConnect a)).trace).adds ?_
  simp only [TcpServer.closeConnect]
  split
  · refine Adds.bind (Adds.bind (appends_onLoop _ _) fun w' => ?_) fun w' => ?_
    · exact .refl _ w'.trace
    · exact .refl _ w'.trace
  · exact .refl _ _

section Closing

variable {closeConnect : Nat → Method ε}

theorem appends_close (h : ∀ a, Appends P (closeConnect a)) (a : Nat) :
    Appends P (TcpStream.close closeConnect a) := by
  intro w
  simp only [TcpStream.close]
  split
  · exact Adds.bind (h a _) fun w' => .refl P w'.trace
  · exact .refl P w.trace

theorem adds_perform (h : ∀ a, Appends P (closeConnect a)) (w : TcpServer ε) (act : Action) :
    Adds P w.trace (act.perform closeConnect w) := by
  cases act with
  | send a p =>
      simp only [Action.perform]
      split
      · exact appends_send a p w
      · exact .refl P _
  | close a =>
      simp only [Action.perform]
      split
      · exact .refl P _
      · split
        · exact .refl P _
        · exact Adds.bind (appends_close h a w) fun w' => .refl P w'.trace
  | setReadingLine a value => exact .refl P w.trace

theorem appends_call (h : ∀ a, Appends P (closeConnect a)) (script : Script) :
    Appends P (script.call closeConnect) := fun w =>
  appends_exec (adds_perform h) (script w.trace) w

end Closing

end MixServer.Server
