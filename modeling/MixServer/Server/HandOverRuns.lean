import MixServer.Server.HandOver

/-!
The hand-over of an HTTP connection, over whole runs on the memory of `pread_buf`.

`hand_over_iff` says in which runs a connection is handed, after every dispatch, exactly
what it should be of the bytes that have arrived.
-/

namespace MixServer.Server

open Lib Net

namespace OnMemory

/-- A READ dispatch reaches a connection as long as it is in `streams`. -/
def arrive {ε : Type} (C : MemClass ε) (a : Nat) (m : OnMemory ε) (blocks : List Block) :
    Except Crash (OnMemory ε) :=
  if a ∈ m.server.streams then readable C m (a, blocks) else .ok m

section Arrive

variable {ε : Type} {C : MemClass ε} {C' : ServerClass ε} {m : OnMemory ε} {a : Nat}

theorem arrive_sync (hC : ViewsAs C C') (h : m.Sync) (blocks : List Block) :
    Ensures (arrive C a m blocks) Sync fun _ => True := by
  unfold arrive
  split
  · exact readable_sync hC h (a, blocks)
  · exact h

/-- A dispatch that loses no byte does what the server does without memory. -/
theorem arrive_views (hC : ViewsAs C C') (h : m.Sync) {blocks : List Block}
    (hkeeps : a ∈ m.server.streams → (m.pread a).KeepsAll blocks) :
    Views server Sync (arrive C a m blocks)
      (Server.arrive C' a m.server (Buffer.bytes blocks)) := by
  unfold arrive Server.arrive
  split
  · rename_i ha
    exact readable_views hC h (e := (a, blocks)) (hkeeps ha)
  · exact ⟨rfl, h⟩

end Arrive

open HttpServer (Unread Exact KeepsTo)

variable {m : OnMemory HttpHandles} {a : Nat}

/-- **Hand-over.** A connection receives a stream in any READ dispatches, and its
handler reacts to each line in any way. No dispatch loses a byte in `pread_buf`, and after every
dispatch the connection has been handed exactly what it should of the bytes received so far,
with nothing left waiting after a switch, iff no dispatch makes the buffer reallocate over unread
bytes and every dispatch keeps to the hand-over. -/
theorem hand_over_iff (h : m.Sync) (hw : Unread a m.server) (react : List Bytes → Reply)
    (answer : List Bytes → List Bytes) (dispatches : List (List Block)) :
    (Every (arrive (memHttpServer (handlerScript a react answer)) a)
        (fun m blocks => a ∈ m.server.streams → (m.pread a).Receives blocks) m dispatches ∧
      ∀ pre, pre <+: dispatches →
        Ensures (exec (arrive (memHttpServer (handlerScript a react answer)) a) m pre)
          (fun m' => Exact react a (Buffer.bytes pre.flatten) m'.server) (fun _ => False)) ↔
      Every (arrive (memHttpServer (handlerScript a react answer)) a)
        (fun m blocks => (a ∈ m.server.streams → (m.pread a).KeepsAll blocks) ∧
          KeepsTo react a m.server (Buffer.bytes blocks)) m dispatches := by
  have hC := viewsAs_httpServer (handlerScript a react answer)
  have hintact : Every (arrive (memHttpServer (handlerScript a react answer)) a)
        (fun m blocks => a ∈ m.server.streams → (m.pread a).Receives blocks) m dispatches ↔
      Every (arrive (memHttpServer (handlerScript a react answer)) a)
        (fun m blocks => a ∈ m.server.streams → (m.pread a).KeepsAll blocks) m dispatches :=
    every_congr (fun m blocks hm => arrive_sync hC hm blocks)
      (fun m blocks hm => imp_congr_right fun _ => Buffer.receives_iff (hm a).1 blocks) h
  rw [every_and, hintact]
  refine and_congr_right fun hkeeps => ?_
  refine prefixes_iff_every_of_legal
    (I := fun past m => m.Sync ∧ HttpServer.Follows react a (Buffer.bytes past.flatten) m.server)
    (G := fun past m => Exact react a (Buffer.bytes past.flatten) m.server) ?_ ?_
    (fun _ _ hI => hI.2.exact) [] ⟨h, hw.follows⟩ hkeeps
  · rintro past m blocks ⟨hm, hfollows⟩ hL hto
    rw [List.flatten_append, List.flatten_singleton, Buffer.bytes_append]
    exact ((arrive_views hC hm hL).ensures ((HttpServer.arrive_spec hfollows _).1 hto)).mono
      (fun _ hm' => hm'.symm) fun _ => id
  · rintro past m blocks ⟨hm, hfollows⟩ hL hto hexact
    rw [List.flatten_append, List.flatten_singleton, Buffer.bytes_append] at hexact
    have hview := arrive_views hC hm hL
    exact (HttpServer.arrive_spec hfollows _).2 hto (hview.ensures_of_view hexact)

/-- What the first dispatch hands over, as the server without memory does. -/
theorem exact_first {react : List Bytes → Reply} {script : Script} (h : m.Sync)
    {blocks : List Block} (hkeeps : (m.pread a).KeepsAll blocks)
    {dispatches : List (List Block)} (hall : ∀ pre, pre <+: blocks :: dispatches →
      Ensures (exec (arrive (memHttpServer script) a) m pre)
        (fun m' => Exact react a (Buffer.bytes pre.flatten) m'.server) (fun _ => False)) :
    Ensures (Server.arrive (httpServer script) a m.server (Buffer.bytes blocks))
      (Exact react a (Buffer.bytes blocks)) (fun _ => False) := by
  have hfirst := ensures_first hall
  rw [List.flatten_singleton] at hfirst
  exact (arrive_views (viewsAs_httpServer script) h fun _ => hkeeps).ensures_of_view hfirst

/-- A connection that has just been accepted. -/
theorem unread_accepted : Unread 1 ((TcpServer.bind 3 {}).connected 4) where
  inv := (Inv.bind 3 ({} : HttpHandles)).connected rfl
  streams := by decide
  handles := by decide
  preadBuf := rfl
  closed := rfl
  handed := rfl

/-- That server, with its memory. -/
def accepted : OnMemory HttpHandles := fresh ((TcpServer.bind 3 {}).connected 4)

theorem sync_accepted : accepted.Sync := by
  refine sync_fresh fun a => ?_
  rw [TcpServer.connected_heap, Function.update_apply]
  split
  · rfl
  · rfl

/-- A handler that switches at the first line. -/
def switching : List Bytes → Reply := fun _ => ⟨[], some .switch⟩

/-- The block in which a line arrives with one byte after it. -/
def lineAndByte : Block := ([85, 13, 10, 120], fun _ => 0)

/-- The theorem at a handler that switches at the first line, which arrives with
one byte after it. -/
theorem hand_over_iff_same_segment :
    (Every (arrive (memHttpServer (handlerScript 1 switching fun _ => [])) 1)
        (fun m blocks => 1 ∈ m.server.streams → (m.pread 1).Receives blocks) accepted
        [[lineAndByte]] ∧
      ∀ pre, pre <+: [[lineAndByte]] →
        Ensures (exec (arrive (memHttpServer (handlerScript 1 switching fun _ => [])) 1)
            accepted pre)
          (fun m' => Exact switching 1 (Buffer.bytes pre.flatten) m'.server) (fun _ => False)) ↔
      Every (arrive (memHttpServer (handlerScript 1 switching fun _ => [])) 1)
        (fun m blocks => (1 ∈ m.server.streams → (m.pread 1).KeepsAll blocks) ∧
          KeepsTo switching 1 m.server (Buffer.bytes blocks)) accepted [[lineAndByte]] :=
  hand_over_iff sync_accepted unread_accepted _ _ _

/-- A byte that arrives with the line that switches stays in `pread_buf`. -/
theorem same_segment_left_waiting :
    ¬ ∀ pre, pre <+: [[lineAndByte]] →
      Ensures (exec (arrive (memHttpServer (handlerScript 1 switching fun _ => [])) 1)
          accepted pre)
        (fun m' => Exact switching 1 (Buffer.bytes pre.flatten) m'.server) (fun _ => False) := by
  intro h
  have hexact := exact_first sync_accepted (Buffer.keepsAll_new lineAndByte (by decide)) h
  have hnext : findCRLF (Buffer.bytes [lineAndByte]) = some 1 := rfl
  have hd : handOver switching [] (Buffer.bytes [lineAndByte]) =
      ⟨[[85]], [120], some .switch⟩ := HttpServer.handOver_stop hnext rfl
  have hleft := Exact.drained hexact (by rw [hd])
  cases hleft

end OnMemory

end MixServer.Server
