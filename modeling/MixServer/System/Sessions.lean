import MixServer.Server.Mirrors
import MixServer.Server.OneSession

/-!
An `HttpServer` that runs `script/httphandle.py`, over the memory of its buffers.

`Sessions` is the whole server with what its kernel does: connections are accepted, READ
events bring data, WRITE events take what the kernel has room for, in any order.

`alone` says that none of the connections notices the others: as long as no byte is lost in a
reallocation and its handler has not closed it, each one is the `Session` of its own READ events.
So what a session comes to on its own is what its client gets from the server, whatever else
happens. `echoes_iff` is that for WebSocket clients. `page_served` and `farewell` are about
clients that the script closes: the connection stays until all that was sent is on the wire, and
no longer.
-/

namespace MixServer

open Lib Net Server Script
open Function (update)

open HttpServer (Alike Apart Closed Handled entered closer)

/-- The server over its memory, and for each connection the data of its READ events and what the
kernel has taken of what it sent. -/
structure Sessions where
  memory : Buffered HttpHandles
  chunks : Nat → List Bytes
  wire : Nat → Bytes

namespace Sessions

/-- The server without the memory. -/
def server (s : Sessions) : TcpServer HttpHandles := s.memory.server

/-- What the event loop does next. -/
inductive Move where
  /-- A client connects; the new descriptor is `fd`. -/
  | connect (fd : Nat)
  /-- `TcpStream::handle_read`, whose receive loop gets the data in `blocks`. -/
  | read (a : Nat) (blocks : List Block)
  /-- `TcpStream::handle_write`. -/
  | write (a : Nat) (rets : List Socket.SendRet)

variable (alloc : Buffered HttpHandles → Nat → UInt8) (lib : Library)

/-- One step. What is not connected does nothing. -/
def step (s : Sessions) : Move → Except Crash Sessions
  | .connect fd => do
      let m ← Buffered.newConnect (bufferedHttpServer alloc (httphandle lib)) fd true s.memory
      return { s with memory := m }
  | .read a blocks =>
      if a ∈ s.server.streams then do
        let m ← BufferedTcpStream.handleRead (bufferedHttpServer alloc (httphandle lib))
          ⟨blocks, .error .EAGAIN⟩ a s.memory
        return { s with
          memory := m
          chunks := update s.chunks a (s.chunks a ++ [Buffer.bytes blocks]) }
      else .ok s
  | .write a rets =>
      if a ∈ s.server.streams then do
        let m ← BufferedTcpStream.handleWrite (bufferedHttpServer alloc (httphandle lib)) rets a
          s.memory
        return { s with
          memory := m
          wire := update s.wire a (s.wire a ++ (s.memory.pwrite a).onWire rets) }
      else .ok s

/-- Only the acceptor, on descriptor `fd`. -/
def bind (fd : Nat) : Sessions where
  memory := Buffered.bind fd {}
  chunks := fun _ => []
  wire := fun _ => []

/-- New descriptors are new, READ events bring data, and a `handle_write` does not fail and
puts nothing wrong on the wire. -/
def Orderly (s : Sessions) : Move → Prop
  | .connect fd => s.server.ploop.select_ fd = none
  | .read _ blocks => Buffer.bytes blocks ≠ []
  | .write a rets => Socket.Calm rets ∧ Socket.Repeats (s.memory.pwrite a).readable 0 rets

instance : ∀ s move, Decidable (Orderly s move)
  | _, .connect _ => inferInstanceAs (Decidable (_ = _))
  | _, .read _ _ => inferInstanceAs (Decidable (_ ≠ _))
  | _, .write _ _ => inferInstanceAs (Decidable (_ ∧ _))

/-- Each connection is its session until its handler closes it, and the next one is new. -/
structure Agree (s : Sessions) : Prop where
  inv : Inv Handled none s.server
  alike : ∀ a, 0 < a → a ≤ s.server.maxConnectId → ∀ c,
    Session.run lib a (s.chunks a) = .ok c → Alike lib a c (s.wire a) (entered a s.server)
  closed : ∀ a, 0 < a → a ≤ s.server.maxConnectId → ∀ c,
    Session.Finishes lib a (s.chunks a) c → Closed a c (s.wire a) s.server
  fresh : ∀ a, s.server.maxConnectId < a → a ∉ s.server.ext.handles ∧
    handedTo a s.server.trace = [] ∧ s.chunks a = [] ∧ s.wire a = []
  data : ∀ a, ∀ chunk ∈ s.chunks a, chunk ≠ []

/-- What holds after every step: the memory is in order, and as long as nothing is lost the
connections are their sessions. -/
structure Kept (s : Sessions) : Prop where
  good : s.memory.Good Handled
  agree : s.memory.lost = false → Agree lib s

variable {alloc lib} {s : Sessions} {m : Buffered HttpHandles} {a : Nat}

theorem kept_bind (fd : Nat) : Kept lib (bind fd) where
  good := Buffered.good_bind fd ({} : HttpHandles)
  agree _ :=
    { inv := Inv.bind fd ({} : HttpHandles)
      alike := fun _ hpos hle => absurd hle (Nat.not_le_of_lt hpos)
      closed := fun _ hpos hle => absurd hle (Nat.not_le_of_lt hpos)
      fresh := fun a _ => ⟨Finset.notMem_empty a, rfl, rfl, rfl⟩
      data := fun _ _ hmem => absurd hmem List.not_mem_nil }

/-- What happens to one connection leaves the agreement of the others. -/
theorem Agree.of_others (h : Agree lib s) {s' : Sessions} {a : Nat} (ha : a ∈ s.server.streams)
    (hinv : Inv Handled none s'.server) (hothers : ∀ b ≠ a, Apart b s.server s'.server)
    (hchunks : ∀ b ≠ a, s'.chunks b = s.chunks b) (hwire : ∀ b ≠ a, s'.wire b = s.wire b)
    (hself : ∀ c, Session.run lib a (s'.chunks a) = .ok c →
      Alike lib a c (s'.wire a) (entered a s'.server))
    (hend : ∀ c, Session.Finishes lib a (s'.chunks a) c → Closed a c (s'.wire a) s'.server)
    (hdata : ∀ chunk ∈ s'.chunks a, chunk ≠ []) : Agree lib s' where
  inv := hinv
  alike b hpos hle c hc := by
    by_cases hb : b = a
    · subst hb
      exact hself c hc
    · rw [(hothers b hb).maxConnectId] at hle
      rw [hchunks b hb] at hc
      rw [hwire b hb]
      exact (h.alike b hpos hle c hc).of_apart (hothers b hb)
  closed b hpos hle c hc := by
    by_cases hb : b = a
    · subst hb
      exact hend c hc
    · rw [(hothers b hb).maxConnectId] at hle
      rw [hchunks b hb] at hc
      rw [hwire b hb]
      exact (h.closed b hpos hle c hc).of_apart (hothers b hb)
  fresh b hb := by
    rw [(hothers (a + 1) (Nat.succ_ne_self a)).maxConnectId] at hb
    have hba : b ≠ a := by
      rintro rfl
      exact absurd (h.inv.numbered b ha).2 (Nat.not_le_of_lt hb)
    obtain ⟨hhandles, hhanded, hnone, hnothing⟩ := h.fresh b hb
    refine ⟨fun hmem => hhandles ((hothers b hba).handles.mp hmem), ?_, ?_, ?_⟩
    · rw [(hothers b hba).handed, hhanded]
    · rw [hchunks b hba, hnone]
    · rw [hwire b hba, hnothing]
  data b := by
    by_cases hb : b = a
    · subst hb
      exact hdata
    · rw [hchunks b hb]
      exact h.data b

theorem Agree.connect (h : Agree lib s) {fd : Nat} (hfd : s.server.ploop.select_ fd = none)
    (hm : m.server = s.server.connected fd) : Agree lib { s with memory := m } := by
  have hserver : Sessions.server { s with memory := m } = s.server.connected fd := hm
  refine ⟨?_, ?_, ?_, ?_, h.data⟩
  · rw [hserver]
    exact h.inv.connected (by rw [hfd]; rfl)
  · intro a hpos hle c hc
    rw [hserver] at hle ⊢
    by_cases ha : a = s.server.maxConnectId + 1
    · subst ha
      obtain ⟨hhandles, hhanded, hnone, hnothing⟩ := h.fresh _ (Nat.lt_succ_self _)
      dsimp only at hc ⊢
      rw [hnone] at hc
      rw [hnothing]
      cases hc
      exact HttpServer.alike_connected hhandles hhanded lib fd
    · have hle' : a ≤ s.server.maxConnectId :=
        Nat.le_of_lt_succ (Nat.lt_of_le_of_ne hle ha)
      exact (h.alike a hpos hle' c hc).connected ha fd
  · intro a hpos hle c hc
    rw [hserver] at hle ⊢
    have ha : a ≠ s.server.maxConnectId + 1 := by
      rintro rfl
      obtain ⟨-, -, hnone, -⟩ := h.fresh _ (Nat.lt_succ_self _)
      obtain ⟨init, last, c₀, hchunks, -⟩ := hc
      have hnone' : init ++ [last] = [] := hchunks.symm.trans hnone
      exact absurd hnone' (List.append_ne_nil_of_right_ne_nil init (List.cons_ne_nil last []))
    have hle' : a ≤ s.server.maxConnectId := Nat.le_of_lt_succ (Nat.lt_of_le_of_ne hle ha)
    exact (h.closed a hpos hle' c hc).connected ha fd
  · intro a ha
    rw [hserver] at ha ⊢
    exact h.fresh a (Nat.lt_of_succ_lt ha)

theorem Agree.read (h : Agree lib s) (ha : a ∈ s.server.streams) {chunk : Bytes}
    (hne : chunk ≠ [])
    (hm : readable (httpServer (httphandle lib)) s.server (a, chunk) = .ok m.server) :
    Agree lib { s with memory := m, chunks := update s.chunks a (s.chunks a ++ [chunk]) } := by
  have hinv := HttpServer.readable_inv (httphandle lib) h.inv ha hne
  obtain ⟨hpos, hle⟩ := h.inv.numbered a ha
  -- what the event does to the session, unless it leaves a line behind a close
  have hself : ∀ c₀, Session.run lib a (s.chunks a) = .ok c₀ →
      (∀ c, Session.handleRead lib a c₀ chunk = .error c → findCRLF c.preadBuf = none) →
      HttpServer.Tracks lib a (s.wire a) (Session.handleRead lib a c₀ chunk) m.server := by
    intro c₀ hc₀ hrest
    obtain ⟨w', hw', htracks, -⟩ := (h.alike a hpos hle c₀ hc₀).readable h.inv hne hrest
    rw [hm] at hw'
    cases hw'
    exact htracks
  refine h.of_others (a := a) ha (hinv.of_ok hm)
    (fun b hb => (HttpServer.readable_others ha hb chunk).of_ok hm) ?_ (fun _ _ => rfl) ?_ ?_ ?_
  · exact fun b hb => Function.update_of_ne hb _ _
  · intro c hc
    dsimp only at hc
    rw [Function.update_self] at hc
    obtain ⟨c₀, hc₀, hlast⟩ := exec_snoc_ok hc
    have htracks := hself c₀ hc₀ fun c' hc' => by
      rw [hlast] at hc'
      cases hc'
    rw [hlast] at htracks
    have halike : Alike lib a c (s.wire a) m.server := htracks
    change Alike lib a c (s.wire a) (entered a m.server)
    rw [entered, if_pos halike.handles]
    exact halike
  · intro c hc
    obtain ⟨init, last, c₀, hchunks, hinit, hlast, hnone⟩ := hc
    dsimp only at hchunks
    rw [Function.update_self] at hchunks
    obtain ⟨rfl, hchunk⟩ := List.append_inj' hchunks rfl
    cases hchunk
    have htracks := hself c₀ hinit fun c' hc' => by
      rw [hlast] at hc'
      cases hc'
      exact hnone
    rw [hlast] at htracks
    exact htracks
  · intro p hp
    dsimp only at hp
    rw [Function.update_self] at hp
    rcases List.mem_append.mp hp with hp | hp
    · exact h.data a p hp
    · rw [List.mem_singleton.mp hp]
      exact hne

theorem Agree.write (h : Agree lib s) (ha : a ∈ s.server.streams)
    {rets : List Socket.SendRet} (hcalm : Socket.Calm rets)
    (hrepeats : Socket.Repeats (s.server.heap a).pwriteBuf 0 rets)
    (hm : TcpStream.handleWrite closer rets a s.server = .ok m.server) :
    Agree lib
      { s with
        memory := m
        wire := update s.wire a
          (s.wire a ++ (Socket.send (s.server.heap a).pwriteBuf rets).wire) } := by
  have hinv := h.inv.handleWrite HttpServer.respects_closer ha rets
  have hnumbered := h.inv.numbered a ha
  refine h.of_others (a := a) ha (hinv.of_ok hm)
    (fun b hb => (HttpServer.handleWrite_others hb rets s.server).of_ok hm) (fun _ _ => rfl)
    ?_ ?_ ?_ (h.data a)
  · exact fun b hb => Function.update_of_ne hb _ _
  · intro c hc
    obtain ⟨w', hw', halike⟩ :=
      (h.alike a hnumbered.1 hnumbered.2 c hc).handleWrite h.inv hcalm hrepeats
    rw [hm] at hw'
    cases hw'
    dsimp only
    rw [Function.update_self]
    exact halike
  · intro c hc
    obtain ⟨w', hw', hclosed⟩ :=
      (h.closed a hnumbered.1 hnumbered.2 c hc).handleWrite h.inv ha hcalm hrepeats
    rw [hm] at hw'
    cases hw'
    dsimp only
    rw [Function.update_self]
    exact hclosed

/-- The failure of a `Buffer::write`. -/
def WriteFails (x : Crash) : Prop := x.cause = .bufferWrite

theorem Kept.connect (h : Kept lib s) {fd : Nat} (hfd : s.server.ploop.select_ fd = none) :
    Ensures (Sessions.step alloc lib s (.connect fd)) (Kept lib) WriteFails := by
  have hrefines := BufferedHttpServer.refines alloc (httphandle lib)
  have hnew : TcpServer.newConnect fd true s.memory.server = .ok (s.server.connected fd) := by
    rw [TcpServer.newConnect_eq]
    change (if true then (if (s.server.ploop.select_ fd).isSome then _ else _) else _) = _
    rw [hfd]
    rfl
  have hviews := h.good.sync.newConnect_views hrefines.connects fd true
  rw [hrefines.connects, hnew] at hviews
  have hgood : Inv Handled none (s.memory.server.connected fd) := by
    refine h.good.inv.connected ?_
    change (s.server.ploop.select_ fd).isSome = false
    rw [hfd]
    rfl
  have hconnected := hviews.ensures (Q := fun w => w = s.server.connected fd)
    (E := WriteFails) rfl
  refine Ensures.bind hconnected ?_
  rintro m ⟨hserver, hsteady⟩
  exact ⟨⟨hsteady.sync, hserver ▸ hgood⟩,
    fun hkept => (h.agree (hsteady.lost_eq.symm.trans hkept)).connect hfd hserver⟩

theorem Kept.read (h : Kept lib s) {blocks : List Block} (hne : Buffer.bytes blocks ≠ []) :
    Ensures (Sessions.step alloc lib s (.read a blocks)) (Kept lib) WriteFails := by
  simp only [Sessions.step]
  split
  · rename_i ha
    have hgood := BufferedHttpServer.good_readable (E := WriteFails) (fun _ => rfl) alloc
      (httphandle lib) h.good ha hne
    have hmirrors := (BufferedHttpServer.refines alloc (httphandle lib)).handleRead h.good.sync
      ⟨blocks, .error .EAGAIN⟩ a
    refine Ensures.bind ((hgood.and hmirrors).mono (fun _ => id) fun _ h => h.1) ?_
    rintro m ⟨hm, -, heq⟩
    refine ⟨hm, fun hkept => ?_⟩
    obtain ⟨hkept₀, hideal⟩ := heq hkept
    refine (h.agree hkept₀).read ha hne ?_
    rw [readable_eq, ← hideal, TcpStream.handleRead_eq]
    rfl
  · exact h

theorem Kept.write (h : Kept lib s) {rets : List Socket.SendRet}
    (hmove : Orderly s (.write a rets)) :
    Ensures (Sessions.step alloc lib s (.write a rets)) (Kept lib) WriteFails := by
  obtain ⟨hcalm, hrepeats⟩ := hmove
  simp only [Sessions.step]
  split
  · rename_i ha
    have hgood := h.good.handleWrite
      (BufferedHttpServer.based alloc (httphandle lib) (E := WriteFails) fun _ => rfl) ha rets
    have hmirrors := (BufferedHttpServer.refines alloc (httphandle lib)).handleWrite h.good.sync
      rets a
    refine Ensures.bind ((hgood.and hmirrors).mono (fun _ => id) fun _ h => h.1) ?_
    rintro m ⟨hm, -, heq⟩
    refine ⟨hm, fun hkept => ?_⟩
    obtain ⟨hkept₀, hideal⟩ := heq hkept
    have hbuf : (s.server.heap a).pwriteBuf = (s.memory.pwrite a).readable :=
      h.good.sync.pwriteBuf a
    rw [Buffer.onWire_eq (h.good.sync.pwrite a).wf, ← hbuf]
    exact (h.agree hkept₀).write ha hcalm (hbuf ▸ hrepeats) hideal
  · exact h

/-- **One step.** No assertion fails, and what is kept stays so. -/
theorem Kept.step (h : Kept lib s) {move : Move} (hmove : Orderly s move) :
    Ensures (Sessions.step alloc lib s move) (Kept lib) WriteFails := by
  cases move with
  | connect fd => exact h.connect hmove
  | read a blocks => exact h.read hmove
  | write a rets => exact h.write hmove

theorem Kept.run (fd : Nat) {moves : List Move}
    (h : Every (Sessions.step alloc lib) Orderly (bind fd) moves) :
    Ensures (exec (Sessions.step alloc lib) (bind fd) moves) (Kept lib) WriteFails :=
  exec_ensures_of_every (fun _ _ hs hm => Kept.step hs hm) (kept_bind fd) h

/-- What a connection is when it is its session. -/
theorem Kept.session (h : Kept lib s) (hkept : s.memory.lost = false) (hpos : 0 < a)
    (hle : a ≤ s.server.maxConnectId) {c : Session}
    (hc : Session.run lib a (s.chunks a) = .ok c) :
    a ∈ s.server.streams ∧ handlerOf lib a s.server.trace = c.handler ∧
      (s.server.senders a).all (·.readingLine) = c.readingLine ∧
      (s.memory.pread a).readable = c.preadBuf ∧
      s.wire a ++ (s.memory.pwrite a).readable = c.sent := by
  have hagree := h.agree hkept
  have halike := hagree.alike a hpos hle c hc
  have hstreams : a ∈ s.server.streams := HttpServer.mem_entered.mp halike.streams
  have hheap : (entered a s.server).heap = s.server.heap := HttpServer.entered_heap
  have hhanded : handedTo a (entered a s.server).trace = handedTo a s.server.trace :=
    HttpServer.entered_trace.handedTo_eq a
  refine ⟨hstreams, ?_, ?_, ?_, ?_⟩
  · rw [← halike.handler, handlerOf, handlerOf, hhanded]
  · have hsender := halike.sender
    by_cases hmem : a ∈ s.server.ext.handles
    · rw [entered, if_pos hmem] at hsender
      rw [hsender, Option.all_some]
    · have hnone : s.server.senders a = none := by
        by_contra hsome
        exact hmem (hagree.inv.owned a hstreams
          (.inr (.inr (Option.isSome_iff_ne_none.mpr hsome))))
      rw [entered, if_neg hmem] at hsender
      have hfirst : some ({} : PySender) = some { readingLine := c.readingLine } := by
        rw [← hsender]
        simp [HttpServer.makeHandle]
      rw [hnone, Option.all_none]
      exact congrArg PySender.readingLine (Option.some_inj.mp hfirst)
  · rw [← halike.preadBuf, hheap]
    exact (h.good.sync.preadBuf a).symm
  · rw [← halike.account, hheap]
    exact congrArg (s.wire a ++ ·) (h.good.sync.pwriteBuf a).symm

/-- What a connection is when its handler has closed it. -/
theorem Kept.on_wire (h : Kept lib s) (hkept : s.memory.lost = false) (hpos : 0 < a)
    (hle : a ≤ s.server.maxConnectId) {c : Session}
    (hc : Session.Finishes lib a (s.chunks a) c) :
    s.wire a ++ (s.memory.pwrite a).readable = c.sent ∧ (s.server.heap a).closing = true ∧
      (a ∈ s.server.streams ↔ s.wire a ≠ c.sent) := by
  have hclosed := ((h.agree hkept).closed a hpos hle c hc).on_wire
  rwa [show (s.server.heap a).pwriteBuf = (s.memory.pwrite a).readable from
    h.good.sync.pwriteBuf a] at hclosed

/-! ### Whole runs -/

variable (alloc lib)

/-- The lines of an upgrade request. -/
def chatRequest : Request where
  lines := [text "GET /chat HTTP/1.1", text "Host: a", text "Connection: Upgrade",
    text "Sec-WebSocket-Key: dGhlIHNhbXBsZSBub25jZQ=="]
  hasRequestLine := List.cons_ne_nil _ _
  nonempty := by decide +kernel

/-- Its headers. -/
def chatHeaders : Headers := fun name =>
  if name = text "Host" then some (text "a")
  else if name = text "Connection" then some (text "Upgrade")
  else if name = text "Sec-WebSocket-Key" then some (text "dGhlIHNhbXBsZSBub25jZQ==")
  else none

/-- What Python's library says about them, on a Thursday in June. -/
def chatLibrary : Library where
  parse _ := .doGet chatHeaders
  hashKey _ := text "s3pPLMBiTxaQ9kYGzzhZRbK+xOo="
  gmtime _ := ⟨2017, 6, 1, 12, 0, 0, 3⟩

/-- A READ event that gets one block. -/
def arrives (a : Nat) (p : Bytes) : Move := .read a [(p, fun _ => 0)]

/-- A client is upgraded and sends two frames, each event of them a part of one; another
one sends half a request meanwhile. -/
def twoVisitors : List Move :=
  [.connect 4, arrives 1 (chatRequest.bytes.take 30), .connect 5, arrives 2 [80, 13, 10],
    arrives 1 (chatRequest.bytes.drop 30), .write 1 [.accepted 100],
    arrives 1 [129, 129, 1, 2, 3, 4, 105], arrives 1 [129, 129, 1, 2, 3], arrives 1 [4, 104]]

/-- A run comes to its end without losing a byte. -/
def LosesNothing (alloc : Buffered HttpHandles → Nat → UInt8) (lib : Library) (fd : Nat)
    (moves : List Move) : Prop :=
  (exec (step alloc lib) (bind fd) moves).toOption.map (·.memory.lost) = some false

instance (fd : Nat) (moves : List Move) : Decidable (LosesNothing alloc lib fd moves) :=
  inferInstanceAs (Decidable (_ = _))

theorem orderly_twoVisitors :
    Every (step (fun _ _ => 0) chatLibrary) Orderly (bind 3) twoVisitors ∧
      LosesNothing (fun _ _ => 0) chatLibrary 3 twoVisitors := by
  decide +kernel

theorem chatUpgrades :
    Session.Upgrades chatLibrary chatRequest (text "dGhlIHNhbXBsZSBub25jZQ==") (text "a") where
  lf_free := by decide +kernel
  parsed := ⟨chatHeaders, rfl, by decide +kernel, by decide +kernel, by decide +kernel⟩

/-- The frames that it sends. -/
theorem chatFrames : Session.ClientFrames [([104], [1, 2, 3, 4]), ([105], [1, 2, 3, 4])]
    [[129, 129, 1, 2, 3, 4, 105], [129, 129, 1, 2, 3, 4, 104]] where
  keyed m hm := by
    rcases List.mem_pair.mp hm with rfl | rfl
    · exact ⟨by decide, 1, 2, 3, 4, rfl, by decide⟩
    · exact ⟨by decide, 1, 2, 3, 4, rfl, by decide⟩
  short := by decide +kernel
  written := .cons (by decide) (.cons (by decide) .nil)

/-- The lines of a request for the page. -/
def pageRequest : Request where
  lines := [text "GET / HTTP/1.1", text "Host: a"]
  hasRequestLine := List.cons_ne_nil _ _
  nonempty := by decide +kernel

/-- Its headers, as Python's library sees them. -/
def pageLibrary : Library where
  parse _ := .doGet fun name => if name = text "Host" then some (text "a") else none
  hashKey _ := []
  gmtime _ := ⟨1970, 1, 1, 0, 0, 0, 3⟩

/-- The page is asked for in two parts, and the kernel takes the beginning of it. -/
def pageVisitor : List Move :=
  [.connect 4, arrives 1 (pageRequest.bytes.take 10), arrives 1 (pageRequest.bytes.drop 10),
    .write 1 [.accepted 50]]

end Sessions

end MixServer
