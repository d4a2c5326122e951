import MixServer.Net.Kqueue
import MixServer.Server.TcpServer

/-!
The listen backlog under `Kqueue`.

`Kqueue::add_handle` registers every filter with `EV_CLEAR`, so a `kevent` call
that returns the read event of the listening descriptor forgets it, whatever
number of handshakes it stood for. `Acceptor::handle_read` accepts one
connection for each event. What remains in the backlog has no event any more,
and waits for the handshake of somebody else.

How many handshakes a `kevent` call finds is a matter of the schedule alone, and
so is whether a connection is left behind (`acceptor_iff`).
-/

namespace MixServer.Server

open Lib Net

variable {ε : Type}

/-- A server with the kernel's side of its listening descriptor. -/
structure Listening (ε : Type) where
  server : TcpServer ε
  /-- Connections whose handshake is complete and which have not been accepted. -/
  backlog : Nat := 0
  /-- There is a read event that no `kevent` call has returned yet. -/
  pending : Bool := false
  /-- The last step has dispatched the acceptor. -/
  dispatched : Bool := false

/-- A handshake completes; the loop makes one iteration, in which `late` handshakes
complete between the `kevent` call and the dispatch of the acceptor, and `accept` and
`getpeername` answer as given; the loop dispatches another handle. -/
inductive Turn where
  | handshake
  | iterate (late : Nat) (fd : Nat) (peer : Bool)
  | serve (e : Event)
deriving DecidableEq, Repr

namespace Listening

def handshake (s : Listening ε) : Listening ε :=
  { s with backlog := s.backlog + 1, pending := true }

/-- The `kevent` call of `Kqueue::select`: whether it returns the event of the
listening descriptor, and what it leaves. -/
def kevent (knote : Knote) (s : Listening ε) : Bool × Listening ε :=
  (s.pending && knote.enabled, { s with pending := s.pending && !knote.clear })

/-- The dispatch of the acceptor. An event that is not cleared stays as long as there is
a connection to accept. -/
def dispatch (C : ServerClass ε) (knote : Knote) (fd : Nat) (peer : Bool) (s : Listening ε) :
    Except Crash (Listening ε) :=
  match s.backlog with
  | 0 => do
      let server ← Acceptor.handleRead C .error s.server
      .ok { s with server := server, dispatched := true }
  | n + 1 => do
      let server ← Acceptor.handleRead C (.conn fd peer) s.server
      .ok {
        server := server
        backlog := n
        pending := s.pending && (knote.clear || n ≠ 0)
        dispatched := true }

def step (C : ServerClass ε) (knote : Knote) (s : Listening ε) :
    Turn → Except Crash (Listening ε)
  | .handshake => .ok { s.handshake with dispatched := false }
  | .iterate late fd peer =>
      let (returned, s) := s.kevent knote
      let s := handshake^[late] { s with dispatched := false }
      if returned then s.dispatch C knote fd peer else .ok s
  | .serve e => do
      let server ← Server.step C s.server e
      .ok { s with server := server, dispatched := false }

/-- After a dispatch, nobody is left in the backlog without an event to come. -/
def Served (s : Listening ε) : Prop := s.dispatched = true → s.backlog = 0 ∨ s.pending = true

end Listening

/-! ### The schedule -/

/-- What matters of the turns so far: how many handshakes have completed since the last
`kevent` call, and whether some call has found more than one. -/
structure Schedule where
  fresh : Nat := 0
  burst : Bool := false
deriving DecidableEq, Repr

namespace Schedule

def step (s : Schedule) : Turn → Schedule
  | .handshake => { s with fresh := s.fresh + 1 }
  | .iterate late _ _ => { fresh := late, burst := s.burst || 2 ≤ s.fresh }
  | .serve _ => s

def after (turns : List Turn) : Schedule := turns.foldl step {}

/-- From the first `kevent` call on that finds more than one handshake, each iteration that
finds any has a further one before it accepts. -/
def Calm (turns : List Turn) : Prop :=
  ∀ past late fd peer, past ++ [.iterate late fd peer] <+: turns → 0 < (after past).fresh →
    (after (past ++ [.iterate late fd peer])).burst = true → 0 < late

theorem after_append (turns : List Turn) (turn : Turn) :
    after (turns ++ [turn]) = (after turns).step turn := by
  rw [after, List.foldl_append]
  rfl

end Schedule

namespace Listening

variable {C : ServerClass ε} {knote : Knote} {s s' : Listening ε} {turns : List Turn}

theorem iterate_handshake (late : Nat) (s : Listening ε) :
    handshake^[late] s =
      { s with backlog := s.backlog + late, pending := s.pending || decide (0 < late) } := by
  induction late with
  | zero => simp
  | succ late ih =>
    rw [Function.iterate_succ_apply', ih]
    simp [handshake, Nat.add_assoc]

/-- The backlog and the event, told by the schedule: `surplus` connections have been left
behind. -/
structure Follows (s : Listening ε) (schedule : Schedule) : Prop where
  pending : s.pending = decide (0 < schedule.fresh)
  backlog : ∃ surplus, s.backlog = schedule.fresh + surplus ∧
    (schedule.burst = true ↔ 0 < surplus)

theorem Follows.handshake {schedule : Schedule} (h : Follows s schedule) :
    Follows { s.handshake with dispatched := false } (schedule.step .handshake) where
  pending := by simp [Listening.handshake, Schedule.step]
  backlog := by
    obtain ⟨surplus, hbacklog, hburst⟩ := h.backlog
    refine ⟨surplus, ?_, hburst⟩
    simp only [Listening.handshake, Schedule.step, hbacklog]
    omega

/-- What a dispatch leaves, when there is somebody to accept. -/
theorem dispatch_ok (hclear : knote.clear = true) {fd : Nat} {peer : Bool} (hpos : 0 < s.backlog)
    (hok : s.dispatch C knote fd peer = .ok s') :
    s'.dispatched = true ∧ s'.backlog + 1 = s.backlog ∧ s'.pending = s.pending := by
  obtain ⟨n, hn⟩ := Nat.exists_eq_add_one.mpr hpos
  rw [dispatch, hn] at hok
  obtain ⟨server, -, hok⟩ := bind_eq_ok.mp hok
  cases hok
  refine ⟨rfl, hn.symm, ?_⟩
  simp [hclear]

/-- An iteration follows the schedule, and leaves nobody behind if and only if the schedule
says so. -/
theorem Follows.iterate {schedule : Schedule} (h : Follows s schedule)
    (henabled : knote.enabled = true) (hclear : knote.clear = true) {late fd : Nat} {peer : Bool}
    (hok : s.step C knote (.iterate late fd peer) = .ok s') :
    Follows s' (schedule.step (.iterate late fd peer)) ∧
      (s'.Served ↔ (0 < schedule.fresh →
        (schedule.step (.iterate late fd peer)).burst = true → 0 < late)) := by
  obtain ⟨surplus, hbacklog, hburst⟩ := h.backlog
  simp only [step, kevent, h.pending, henabled, hclear, iterate_handshake, Bool.and_true,
    Bool.not_true, Bool.and_false, Bool.false_or, decide_eq_true_eq] at hok
  split at hok
  · rename_i hfresh
    obtain ⟨hdispatched, hleft, hpending⟩ := dispatch_ok hclear (by simp only; omega) hok
    simp only [hbacklog] at hleft hpending
    have hburst' : (schedule.step (.iterate late fd peer)).burst = true ↔
        0 < schedule.fresh - 1 + surplus := by
      simp only [Schedule.step, Bool.or_eq_true, decide_eq_true_eq, hburst]
      omega
    refine ⟨⟨hpending, schedule.fresh - 1 + surplus, ?_, hburst'⟩, ?_⟩
    · simp only [Schedule.step]
      omega
    · rw [Served, hburst', hpending, decide_eq_true_eq]
      constructor
      · intro hserved _ hleft'
        rcases hserved hdispatched with hnone | hlate
        · omega
        · exact hlate
      · intro hcalm _
        by_cases hsurplus : 0 < schedule.fresh - 1 + surplus
        · exact .inr (hcalm hfresh hsurplus)
        · by_cases hlate : 0 < late
          · exact .inr hlate
          · exact .inl (by omega)
  · rename_i hfresh
    cases hok
    have hburst' : (schedule.step (.iterate late fd peer)).burst = true ↔ 0 < surplus := by
      simp only [Schedule.step, Bool.or_eq_true, decide_eq_true_eq, hburst]
      omega
    refine ⟨⟨rfl, surplus, ?_, hburst'⟩, ?_⟩
    · simp only [Schedule.step, hbacklog]
      omega
    · exact iff_of_true (fun hdispatched => by cases hdispatched) fun hpos => absurd hpos hfresh

theorem step_serve {e : Event} (hok : s.step C knote (.serve e) = .ok s') :
    s'.dispatched = false ∧ s'.backlog = s.backlog ∧ s'.pending = s.pending := by
  obtain ⟨server, -, hok⟩ := bind_eq_ok.mp hok
  cases hok
  exact ⟨rfl, rfl, rfl⟩

/-- Every turn follows the schedule. -/
theorem Follows.step {schedule : Schedule} (h : Follows s schedule)
    (henabled : knote.enabled = true) (hclear : knote.clear = true) {turn : Turn}
    (hok : s.step C knote turn = .ok s') : Follows s' (schedule.step turn) := by
  cases turn with
  | handshake =>
    cases hok
    exact h.handshake
  | iterate late fd peer => exact (h.iterate henabled hclear hok).1
  | serve e =>
    obtain ⟨-, hbacklog, hpending⟩ := step_serve hok
    exact ⟨hpending.trans h.pending, hbacklog ▸ h.backlog⟩

/-- The server before anybody has connected. -/
def init (w : TcpServer ε) : Listening ε := { server := w }

theorem follows_init (w : TcpServer ε) : Follows (init w) {} := ⟨rfl, 0, rfl, by simp⟩

theorem follows_exec (henabled : knote.enabled = true) (hclear : knote.clear = true)
    {w : TcpServer ε} (hrun : exec (Listening.step C knote) (init w) turns = .ok s) :
    Follows s (.after turns) := by
  induction turns using List.reverseRecOn generalizing s with
  | nil =>
    cases hrun
    exact follows_init w
  | append_singleton turns turn ih =>
    obtain ⟨s₁, hrun₁, hturn⟩ := exec_snoc_ok hrun
    rw [Schedule.after_append]
    exact (ih hrun₁).step henabled hclear hturn

/-- In a run under an enabled filter with `EV_CLEAR`, nobody is left behind if and only if
the schedule is calm. -/
theorem served_iff (henabled : knote.enabled = true) (hclear : knote.clear = true)
    {w : TcpServer ε} (hrun : exec (Listening.step C knote) (init w) turns = .ok s) :
    AllReached (Listening.step C knote) Served (init w) turns ↔ Schedule.Calm turns := by
  constructor
  · intro hserved past late fd peer hpre
    obtain ⟨s', hs'⟩ := exec_of_prefix hrun hpre
    obtain ⟨s₁, hrun₁, hturn⟩ := exec_snoc_ok hs'
    have hiterate := (follows_exec henabled hclear hrun₁).iterate henabled hclear hturn
    rw [Schedule.after_append]
    exact hiterate.2.mp (hserved _ hpre s' hs')
  · intro hcalm past hpre s' hs'
    induction past using List.reverseRecOn with
    | nil =>
      cases hs'
      intro hdispatched
      cases hdispatched
    | append_singleton past turn =>
      obtain ⟨s₁, hrun₁, hturn⟩ := exec_snoc_ok hs'
      have hfollows := follows_exec henabled hclear hrun₁
      cases turn with
      | handshake =>
        cases hturn
        intro hdispatched
        cases hdispatched
      | iterate late fd peer =>
        have hcond := hcalm past late fd peer hpre
        rw [Schedule.after_append] at hcond
        exact (hfollows.iterate henabled hclear hturn).2.mpr hcond
      | serve e =>
        intro hdispatched
        rw [(step_serve hturn).1] at hdispatched
        cases hdispatched

/-- The filter that `Kqueue` has registered for a descriptor watched for READ. -/
theorem knote_of_kqueue {alloc : Allocator} {calls : List SelectorCall} {r : Registered}
    (hcalls : exec Registered.step .empty calls = .ok r) {k : Kqueue}
    (hkqueue : exec (Kqueue.selector alloc).step (.init alloc) calls = .ok k) {fd : Int} {m : Mask}
    (hfd : r fd = some m) (hread : m &&& READ ≠ 0) :
    ∃ knote, k.kernel fd .read = some knote ∧ knote.enabled = true ∧ knote.clear = true := by
  obtain ⟨k', hk', h⟩ := (Kqueue.refines alloc).exec_ok (Kqueue.tracks_init alloc) hcalls
  obtain rfl : k = k' := Except.ok.inj (hkqueue.symm.trans hk')
  obtain ⟨once, -, hmatches⟩ := h.filters fd m hfd
  obtain ⟨knote, hknote, henabled⟩ := (hmatches.enabled .read).mpr hread
  exact ⟨knote, hknote, henabled, h.clear fd .read knote hknote⟩

/-- With the listening descriptor registered by `Kqueue`, for every run of the server:
after each dispatch of the acceptor the backlog is empty or a further event is pending, if
and only if the schedule is calm. -/
theorem acceptor_iff (C : ServerClass ε) (alloc : Allocator) {calls : List SelectorCall}
    {r : Registered} (hcalls : exec Registered.step .empty calls = .ok r) {k : Kqueue}
    (hkqueue : exec (Kqueue.selector alloc).step (.init alloc) calls = .ok k) {fd : Int} {m : Mask}
    (hfd : r fd = some m) (hread : m &&& READ ≠ 0) :
    ∃ knote, k.kernel fd .read = some knote ∧
      ∀ (w : TcpServer ε) (turns : List Turn) (s : Listening ε),
        exec (Listening.step C knote) (init w) turns = .ok s →
        (AllReached (Listening.step C knote) Served (init w) turns ↔ Schedule.Calm turns) := by
  obtain ⟨knote, hknote, henabled, hclear⟩ := knote_of_kqueue hcalls hkqueue hfd hread
  exact ⟨knote, hknote, fun w turns s hrun => served_iff henabled hclear hrun⟩

/-- One handshake before the event is returned, and one before the connection is accepted:
the second has an event of its own. -/
theorem acceptor_iff_late :
    ∃ knote s, exec (Listening.step (scripted fun _ => []) knote) (init (TcpServer.bind 3 ()))
        [.handshake, .iterate 1 7 true] = .ok s ∧
      s.dispatched = true ∧ s.backlog = 1 ∧ s.Served := by
  have hcalls : exec Registered.step .empty [.addHandle 3 (READ ||| ERROR)] =
      .ok (Function.update Registered.empty 3 (some (READ ||| ERROR))) := rfl
  have hkqueue : exec (Kqueue.selector .libstdcxx).step (.init .libstdcxx)
      [.addHandle 3 (READ ||| ERROR)] = .ok _ := rfl
  have hfd : Function.update Registered.empty 3 (some (READ ||| ERROR)) 3 =
      some (READ ||| ERROR) := rfl
  obtain ⟨knote, hknote, hiff⟩ :=
    acceptor_iff (scripted fun _ => []) .libstdcxx hcalls hkqueue hfd (by decide)
  obtain rfl : (⟨true, true⟩ : Knote) = knote := Option.some.inj hknote
  have hcalm : Schedule.Calm [.handshake, .iterate 1 7 true] := by
    intro past late fd peer hpre _ _
    have hmem := hpre.subset (List.mem_append_right past (List.mem_singleton_self _))
    simp only [List.mem_cons, Turn.iterate.injEq, List.not_mem_nil, or_false] at hmem
    rcases hmem with hmem | ⟨rfl, -⟩
    · cases hmem
    · decide
  have hrun : exec (Listening.step (scripted fun _ => []) ⟨true, true⟩) (init (TcpServer.bind 3 ()))
      [.handshake, .iterate 1 7 true] = .ok _ := rfl
  have hserved := (hiff _ _ _ hrun).mpr hcalm _ List.prefix_rfl _ hrun
  exact ⟨_, _, hrun, rfl, rfl, hserved⟩

/-- Two handshakes before the event is returned: one of the connections is left behind. -/
theorem acceptor_left_behind :
    ¬ ∀ (C : ServerClass Unit) (alloc : Allocator) (calls : List SelectorCall) (k : Kqueue)
      (fd : Int) (knote : Knote) (w : TcpServer Unit) (turns : List Turn) (s : Listening Unit),
      exec (Kqueue.selector alloc).step (.init alloc) calls = .ok k →
      k.kernel fd .read = some knote → knote.enabled = true →
      exec (Listening.step C knote) (init w) turns = .ok s →
      AllReached (Listening.step C knote) Served (init w) turns := by
  intro h
  have hserved := h (scripted fun _ => []) .libstdcxx [.addHandle 3 (READ ||| ERROR)] _ 3
    ⟨true, true⟩ (TcpServer.bind 3 ()) [.handshake, .handshake, .iterate 0 7 true] _ rfl rfl rfl rfl
    _ List.prefix_rfl _ rfl rfl
  simp at hserved

end Listening

end MixServer.Server
