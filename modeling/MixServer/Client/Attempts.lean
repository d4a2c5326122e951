import MixServer.Client.Status

/-!
How often the client tries before it gives up.

`_start_connect` counts an attempt once the connector is registered. Where `::connect`
fails at once it returns before `++retry_count`, and `_re_connect` re-arms its timer all
the same. `attempts_bounded` is about runs without such a failure, in which the count is
exact; `fails_at_once` about runs of nothing else, in which it never moves.
-/

namespace MixServer

open Lib Net

/-- The calls of `_start_connect` since the last `on_connected`, after one more entry. -/
def ClientObs.count (n : Nat) : ClientObs → Nat
  | .startConnect => n + 1
  | .onConnected => 0
  | _ => n

/-- The calls of `_start_connect` since the last `on_connected`, or since `start_connect`. -/
def attempts (trace : List ClientObs) : Nat := trace.foldl ClientObs.count 0

@[simp] theorem attempts_nil : attempts [] = 0 := rfl

@[simp] theorem attempts_snoc (t : List ClientObs) (o : ClientObs) :
    attempts (t ++ [o]) = o.count (attempts t) := by
  simp [attempts]

/-- An entry that is neither an attempt nor a success. -/
def ClientObs.Quiet (o : ClientObs) : Prop := o ≠ .startConnect ∧ o ≠ .onConnected

theorem ClientObs.Quiet.count_eq {o : ClientObs} (h : o.Quiet) (n : Nat) : o.count n = n := by
  cases o with
  | startConnect => exact absurd rfl h.1
  | onConnected => exact absurd rfl h.2
  | received data => rfl
  | onMsg payload => rfl
  | onClose => rfl

namespace ClientLoop

/-- At no time were there more attempts than `max_retry_cout + 1` since the last success. -/
def Within (t : List ClientObs) : Prop := ∀ pre, pre <+: t → attempts pre ≤ maxRetryCout + 1

theorem within_nil : Within [] := by
  intro pre hpre
  obtain rfl := List.prefix_nil.mp hpre
  exact Nat.zero_le _

theorem Within.snoc {t : List ClientObs} {o : ClientObs} (h : Within t)
    (hlast : o.count (attempts t) ≤ maxRetryCout + 1) : Within (t ++ [o]) := by
  intro pre hpre
  rcases List.prefix_concat_iff.mp hpre with rfl | hbefore
  · rw [attempts_snoc]
    exact hlast
  · exact h pre hbefore

theorem Within.all {t : List ClientObs} (h : Within t) : attempts t ≤ maxRetryCout + 1 :=
  h t List.prefix_rfl

variable {c c' : ClientLoop} {proto : Bytes → Except Abort Bytes} {hello : Bytes} {io : ClientIo}

/-- `retry_count` is the number of attempts, of which there were never too many. -/
structure Counted (c : ClientLoop) : Prop where
  count : attempts c.trace = c.retryCount
  within : Within c.trace

/-- What leaves the count alone and makes only quiet entries. -/
theorem Counted.quiet {q : List ClientObs} (h : Counted c) (hq : ∀ o ∈ q, o.Quiet)
    (htrace : c'.trace = c.trace ++ q) (hcount : c'.retryCount = c.retryCount) : Counted c' := by
  have hmain : ∀ q : List ClientObs, (∀ o ∈ q, o.Quiet) →
      attempts (c.trace ++ q) = attempts c.trace ∧ Within (c.trace ++ q) := by
    intro q
    induction q using List.reverseRecOn with
    | nil =>
      intro _
      rw [List.append_nil]
      exact ⟨rfl, h.within⟩
    | append_singleton q o ih =>
      intro hq
      obtain ⟨hsame, hwithin⟩ := ih fun o' ho' => hq o' (List.mem_append_left _ ho')
      have ho := (hq o (List.mem_append_right _ (List.mem_singleton_self o))).count_eq
      rw [← List.append_assoc, attempts_snoc, ho]
      refine ⟨hsame, hwithin.snoc ?_⟩
      rw [ho]
      exact hwithin.all
  obtain ⟨hsame, hwithin⟩ := hmain q hq
  rw [← htrace] at hsame hwithin
  exact ⟨by rw [hsame, hcount, h.count], hwithin⟩

theorem Counted.of_same (h : Counted c) (htrace : c'.trace = c.trace)
    (hcount : c'.retryCount = c.retryCount) : Counted c' :=
  h.quiet (q := []) (by simp) (by rw [htrace, List.append_nil]) hcount

theorem Counted.updateEvent (h : Counted c) (events : Events) :
    Ensures (c.updateEvent events) Counted fun _ => True := by
  simp only [ClientLoop.updateEvent]
  split
  · exact h.of_same rfl rfl
  · trivial

theorem Counted.send (h : Counted c) (p : Bytes) :
    Ensures (c.send p) Counted fun _ => True := by
  have hwritten :
      Counted { c with pconn := { c.pconn with pwriteBuf := c.pconn.pwriteBuf ++ p } } :=
    h.of_same rfl rfl
  exact hwritten.updateEvent _

/-- Closing the connection is no attempt, and leaves the count alone. -/
theorem Counted.closeConn (h : Counted c) :
    Ensures c.closeConn (fun c' => Counted c' ∧ c'.retryCount = c.retryCount)
      fun _ => True := by
  by_cases hreg : c.pconn.registered = true
  · rw [closeConn_eq hreg]
    refine ⟨h.quiet (q := [.onClose]) ?_ rfl rfl, rfl⟩
    simp [ClientObs.Quiet]
  · simp only [ClientLoop.closeConn, onClose, if_neg hreg]
    trivial

/-- On success the count starts again. -/
theorem Counted.onConnected (h : Counted c) (hello : Bytes) :
    Ensures (c.onConnected hello) Counted fun _ => True := by
  have hnew : Counted { c.log .onConnected with retryCount := 0, status := .CONNECTED } :=
    ⟨attempts_snoc c.trace .onConnected, h.within.snoc (Nat.zero_le _)⟩
  exact hnew.send hello

/-- `_start_connect`, where `::connect` does not fail at once. -/
theorem Counted.startConnect_ (h : Counted c) (hmax : c.retryCount ≤ maxRetryCout)
    {ret : ConnectRet} (hret : ret ≠ .error) :
    Ensures (c.startConnect_ ret) Counted fun _ => True := by
  have hnext : ∀ c' : ClientLoop, c'.trace = c.trace ++ [.startConnect] →
      c'.retryCount = c.retryCount + 1 → Counted c' := by
    intro c' htrace hcount
    have hlast : attempts (c.trace ++ [.startConnect]) = c.retryCount + 1 := by
      rw [attempts_snoc, h.count]
      rfl
    constructor
    · rw [htrace, hcount, hlast]
    · rw [htrace]
      apply h.within.snoc
      rw [← attempts_snoc, hlast]
      exact Nat.succ_le_succ hmax
  simp only [ClientLoop.startConnect_]
  split
  · cases ret with
    | zero => exact hnext _ rfl rfl
    | inProgress => exact hnext _ rfl rfl
    | error => exact absurd rfl hret
  · trivial

/-- A firing of the retry timer. -/
theorem Counted.reConnect (h : Counted c) {ret : ConnectRet}
    (hret : c.retryCount ≤ maxRetryCout → c.status ≠ .CONNECTED → ret ≠ .error) :
    Ensures (c.reConnect ret) Counted fun _ => True := by
  have hfired : Counted { c with timers := c.timers - 1 } := h.of_same rfl rfl
  simp only [ClientLoop.reConnect]
  split
  · exact hfired
  · rename_i hmax
    split
    · exact hfired
    · rename_i hne
      have hdial : ∀ c₁ : ClientLoop, Counted c₁ → c₁.retryCount = c.retryCount →
          Ensures (do
            let c ← if c₁.status = .CLOSED then c₁.startConnect_ ret else .ok c₁
            return { c with timers := c.timers + 1 } : Result) Counted fun _ => True := by
        intro c₁ hc₁ hcount
        split
        · exact (hc₁.startConnect_ (hcount.trans_le (not_lt.mp hmax))
            (hret (not_lt.mp hmax) hne)).bind fun c₂ hc₂ => hc₂.of_same rfl rfl
        · exact hc₁.of_same rfl rfl
      split
      · exact hfired.closeConn.bind fun c₁ hc₁ => hdial c₁ hc₁.1 hc₁.2
      · exact hdial _ hfired rfl

/-! ### Dispatch -/

theorem Counted.handleRead (h : Counted c) :
    Ensures (c.handleRead proto io) Counted fun _ => True := by
  simp only [ClientLoop.handleRead]
  split
  · trivial
  · split
    · exact h
    · exact h.closeConn.mono (fun _ h' => h'.1) fun _ => id
  · have hreceived : Counted { c.log (.received io.recv.chunks.flatten) with
        pconn := { c.pconn with preadBuf := (Socket.recv c.pconn.preadBuf io.recv).1 } } :=
      h.quiet (q := [.received io.recv.chunks.flatten]) (by simp [ClientObs.Quiet]) rfl rfl
    split
    · exact hreceived.closeConn.mono (fun _ h' => h'.1) fun _ => id
    · simp only [onRead]
      split
      · trivial
      · rename_i r _
        refine hreceived.quiet (q := r.handled.map .onMsg) ?_ rfl rfl
        simp [ClientObs.Quiet]

theorem Counted.handleWrite (h : Counted c) :
    Ensures (c.handleWrite hello io) Counted fun _ => True := by
  simp only [ClientLoop.handleWrite]
  split
  · trivial
  · split
    · have hset : Counted { c with pconn := { c.pconn with status := .CONNECTED } } :=
        h.of_same rfl rfl
      exact (hset.updateEvent _).bind fun c' hc' => hc'.onConnected hello
    · exact h.closeConn.mono (fun _ h' => h'.1) fun _ => id
  · have hsent : Counted { c with pconn := { c.pconn with
        pwriteBuf := (Socket.send c.pconn.pwriteBuf io.send).pbuf } } := h.of_same rfl rfl
    split
    · exact hsent.closeConn.mono (fun _ h' => h'.1) fun _ => id
    · split
      · exact hsent.updateEvent _
      · exact hsent

theorem Counted.doSelect (h : Counted c) (events : Events) :
    Ensures (c.doSelect proto hello events io) Counted fun _ => True := by
  have hset : Counted { c with pconn := { c.pconn with revents := events } } :=
    h.of_same rfl rfl
  exact doSelect_ensures h (fun _ => hset) (fun _ _ => hset.handleRead)
    (fun _ hc' _ => hc'.handleWrite) fun _ => id

/-! ### Runs -/

/-- No `::connect` that the event makes the client call fails at once. -/
def NotRefused (c : ClientLoop) (e : ClientEvent) : Prop := ∀ ret, Dials c e ret → ret ≠ .error

theorem Counted.step (h : Counted c) {e : ClientEvent} (hret : NotRefused c e) :
    Ensures (ClientLoop.step proto hello c e) Counted fun _ => True := by
  cases e with
  | select events io => exact h.doSelect events
  | timer ret =>
    simp only [ClientLoop.step]
    split
    · rename_i htimers
      exact h.reConnect fun hmax hne => hret ret ⟨rfl, htimers, hmax, hne⟩
    · exact h
  | send p => exact h.send p
  | close => exact h.of_same rfl rfl

theorem startConnect_counted {ret : ConnectRet} (hret : ret ≠ .error) :
    Ensures (startConnect ret) Counted fun _ => True := by
  have hnew : Counted {} := ⟨attempts_nil, within_nil⟩
  exact (hnew.startConnect_ (Nat.zero_le _) hret).bind fun c hc => hc.of_same rfl rfl

/-- **The attempts are bounded** in every run in which no `::connect` fails at once: there
are at most `max_retry_cout + 1` between two successes, or before the first. -/
theorem attempts_bounded {ret : ConnectRet} (hret : ret ≠ .error)
    (hstart : startConnect ret = .ok c) {es : List ClientEvent}
    (hcond : Every (ClientLoop.step proto hello) NotRefused c es) :
    AllReached (ClientLoop.step proto hello) (fun c => Within c.trace) c es :=
  (allReached_of_every (fun _ _ h hC => h.step hC) ((startConnect_counted hret).of_ok hstart)
    hcond).mono fun _ h => h.within

/-- An attempt that times out, and one that succeeds. -/
theorem attempts_bounded_twice :
    ∃ c, startConnect .inProgress = .ok c ∧
      AllReached (ClientLoop.step (fun praw => .ok praw) []) (fun c => Within c.trace) c
        [.timer .inProgress, .select { write := true } ⟨true, ⟨[], .eof⟩, 0, []⟩] := by
  refine ⟨_, rfl, attempts_bounded (show ConnectRet.inProgress ≠ .error by decide) rfl ⟨?_, ?_⟩⟩
  · rintro ret ⟨hret, -⟩
    cases hret
    decide
  · intro c' _
    refine ⟨?_, fun _ _ => trivial⟩
    rintro ret ⟨hret, -⟩
    cases hret

/-- The timer of a closed client that may still try, when `::connect` fails at once. -/
theorem timer_fails (hclosed : c.status = .CLOSED) (htimers : 0 < c.timers)
    (hmax : c.retryCount ≤ maxRetryCout) :
    ClientLoop.step proto hello c (.timer .error) =
      .ok { c.log .startConnect with pconn := {} } := by
  have htimers' : c.timers - 1 + 1 = c.timers := Nat.sub_add_cancel htimers
  simp only [ClientLoop.step, if_pos htimers, reConnect, if_neg (not_lt.mpr hmax), hclosed,
    startConnect_]
  simp [htimers', log, pure, Except.pure, hclosed]

/-- A client whose `::connect` fails at once each time never gives up. -/
theorem fails_at_once (n : Nat) (hclosed : c.status = .CLOSED) (htimers : 0 < c.timers)
    (hmax : c.retryCount ≤ maxRetryCout) :
    ∃ c', exec (ClientLoop.step proto hello) c (List.replicate n (.timer .error)) = .ok c' ∧
      attempts c'.trace = attempts c.trace + n := by
  induction n generalizing c with
  | zero => exact ⟨c, rfl, rfl⟩
  | succ n ih =>
    obtain ⟨c', hrun, hcount⟩ :=
      ih (c := { c.log .startConnect with pconn := {} }) hclosed htimers hmax
    refine ⟨c', ?_, ?_⟩
    · rw [List.replicate_succ, exec_cons_ok (timer_fails hclosed htimers hmax), hrun]
    · rw [hcount]
      simp only [log, attempts_snoc, ClientObs.count]
      omega

/-- Without a network every firing of the timer is one more attempt: the twelfth follows
the eleventh. -/
theorem attempts_unbounded :
    ¬ ∀ (ret : ConnectRet) (c : ClientLoop) (es : List ClientEvent), startConnect ret = .ok c →
      AllReached (ClientLoop.step (fun praw => .ok praw) []) (fun c => Within c.trace) c es := by
  intro h
  obtain ⟨c', hrun, hcount⟩ : ∃ c', exec (ClientLoop.step (fun praw => .ok praw) [])
      { timers := 1, trace := [.startConnect] } (List.replicate 11 (.timer .error)) = .ok c' ∧
      attempts c'.trace = 1 + 11 := fails_at_once 11 rfl Nat.one_pos (Nat.zero_le _)
  have hbound := (h .error _ _ rfl _ List.prefix_rfl c' hrun).all
  rw [hcount] at hbound
  revert hbound
  decide

end ClientLoop

end MixServer
