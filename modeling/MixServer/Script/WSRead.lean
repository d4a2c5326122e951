import MixServer.Script.WSStream

/-!
Reading one frame: what the calls of `on_read` do that a fresh `WSFrame` is given
the chunks of a single frame with.

* `round_trip` is about masked frames of messages that are not empty, whose key
  begins with a non-zero octet.
* `every_key_iff` says which keys are read back at all.
* `empty_never_completes` is about frames without payload: their header is read
  and then the frame waits for a byte that is not its own.
-/

namespace MixServer.Script

open Lib

namespace WSFrame

/-- How the calls of `on_read` end that give the object the chunks in turn. -/
def outcomes : WSFrame → List Bytes → List Outcome
  | _, [] => []
  | f, c :: cs => (f.onRead c).2 :: outcomes (f.onRead c).1 cs

section Masked

variable {msg key extra F : Bytes} {len : UInt8}

/-! ### The round trip -/

/-- Every call returns but the last, which hands the message over. -/
theorem outcomes_waiting (h : Masked msg key extra len F) {p : Bytes} {chunks : List Bytes}
    (hne : ∀ c ∈ chunks, c ≠ []) (hp : p.length < F.length) (hcut : p ++ chunks.flatten = F) :
    (waiting extra len msg.length p).outcomes chunks =
      List.replicate (chunks.length - 1) .returned ++ [.handleFrame msg] := by
  induction chunks generalizing p with
  | nil =>
    rw [List.flatten_nil, List.append_nil] at hcut
    rw [hcut] at hp
    exact absurd hp (lt_irrefl _)
  | cons c cs ih =>
    have hcs : ∀ c ∈ cs, c ≠ [] := fun c' hc' => hne c' (List.mem_cons_of_mem c hc')
    rw [List.flatten_cons, ← List.append_assoc] at hcut
    have hpre : p ++ c <+: F ++ [] := by
      rw [List.append_nil, ← hcut]
      exact List.prefix_append _ _
    cases reads_waiting h c hp hpre with
    | incomplete hlt heq =>
        have hrest := ih hcs hlt hcut
        cases cs with
        | nil =>
            rw [List.flatten_nil, List.append_nil] at hcut
            rw [hcut] at hlt
            exact absurd hlt (lt_irrefl _)
        | cons c' cs =>
            rw [outcomes, heq, hrest]
            rfl
    | complete heq hdone =>
        rw [heq] at hcut
        obtain rfl := WSHandle.eq_nil_of_flatten_eq_nil hcs (List.append_right_eq_self.mp hcut)
        rw [outcomes, hdone]
        rfl
    | overrun hgt =>
        have hlen := hpre.length_le
        rw [List.append_nil] at hlen
        omega

end Masked

/-- **Round trip.** A masked frame of a non-empty message, whose key begins with a
non-zero octet, arrives in any non-empty chunks: the last call of `on_read`, and
no call before it, calls `handle_frame`, with the message. -/
theorem round_trip {msg : Bytes} (hmsg : msg ≠ []) (hlen : msg.length < 2 ^ 63)
    {a b c d : UInt8} (ha : a ≠ 0) :
    ∃ F, makeFrameData msg [a, b, c, d] = some F ∧
      ∀ chunks : List Bytes, (∀ c ∈ chunks, c ≠ []) → chunks.flatten = F →
        ({} : WSFrame).outcomes chunks =
          List.replicate (chunks.length - 1) .returned ++ [.handleFrame msg] := by
  have hkey : ([a, b, c, d] : Bytes) = [] ∨ ([a, b, c, d] : Bytes).length = 4 := .inr rfl
  have hF := makeFrameData_eq (hlen.trans (by decide)) hkey
  have hmasked := masked_of_makeFrameData hmsg ha hF
  refine ⟨_, hF, ?_⟩
  intro chunks hne hcut
  exact outcomes_waiting (p := []) hmasked hne hmasked.length_pos hcut

/-- The theorem at a short message. -/
theorem round_trip_hi :
    ∃ F, makeFrameData [104, 105] [1, 0, 0, 0] = some F ∧
      ∀ chunks : List Bytes, (∀ c ∈ chunks, c ≠ []) → chunks.flatten = F →
        ({} : WSFrame).outcomes chunks =
          List.replicate (chunks.length - 1) .returned ++ [.handleFrame [104, 105]] :=
  round_trip (by decide) (by decide) (by decide)

/-! ### The keys that are read back -/

theorem head?_dropWhile_zero (bs : Bytes) : (bs.dropWhile (· = 0)).head? ≠ some 0 := by
  intro hzero
  have hhead := List.head?_dropWhile_not (fun b : UInt8 => decide (b = 0)) bs
  rw [hzero] at hhead
  cases hhead

/-- No key that is read begins with a zero octet. -/
theorem onReadN_maskCodes {f : WSFrame} (hf : f.maskCodes.head? ≠ some 0) (depth : Nat)
    (s : Bytes) : (onReadN depth f s).1.maskCodes.head? ≠ some 0 := by
  induction depth generalizing f s with
  | zero => exact hf
  | succ depth ih =>
    rw [onReadN]
    have hread : (if f.readingHead = true then { f with buf := f.buf ++ s } else f).maskCodes =
        f.maskCodes := by
      split
      · rfl
      · rfl
    rw [← hread] at hf
    generalize (if f.readingHead = true then { f with buf := f.buf ++ s } else f) = g at hf
    dsimp only
    split
    · exact hf
    · split
      · split
        · split
          · exact hf
          · split
            · exact ih (by rwa [setMode_eq]) []
            · rwa [setMode_eq]
        · exact hf
      · split
        · split
          · refine ih ?_ []
            exact hf
          · exact hf
        · exact hf
      · split
        · split
          · rename_i mask hmask
            have hkey : (maskOctets 4 mask).reverse.head? ≠ some 0 := by
              unfold structUnpack at hmask
              split at hmask
              · rename_i hlen
                cases hmask
                rw [maskOctets_key (by rw [List.length_take]; omega)]
                exact head?_dropWhile_zero _
              · cases hmask
            split
            · exact ih hkey []
            · exact hkey
          · exact hf
        · rwa [readPayload_eq]

theorem onRead_maskCodes {f : WSFrame} (hf : f.maskCodes.head? ≠ some 0) (s : Bytes) :
    (f.onRead s).1.maskCodes.head? ≠ some 0 :=
  onReadN_maskCodes hf _ s

/-- A frame that comes in one chunk goes through all the stages at once. -/
theorem onRead_whole {msg key extra F : Bytes} {len : UInt8} (h : Masked msg key extra len F) :
    ({} : WSFrame).onRead F = (keyed len msg.length key (xorKey key msg)).readPayload [] := by
  have hlength := h.length
  have hnonempty := h.nonempty
  obtain ⟨depth, hdepth⟩ : ∃ depth, ([] : Bytes).length + F.length + 1 = depth + 4 :=
    ⟨F.length - 3, by rw [List.length_nil]; omega⟩
  have hkeyed : (xorKey key msg).length = msg.length := length_xorKey key msg
  have hpos : 0 < (xorKey key msg).length := hkeyed ▸ hnonempty
  have hpayload : ∀ n, onReadN (n + 2) (headed extra len (some msg.length) (key ++ xorKey key msg))
      [] = (keyed len msg.length key (xorKey key msg)).readPayload [] := by
    intro n
    rw [onReadN_key h (List.append_nil _) hkeyed.ge hpos, onReadN_keyed_eq h]
  rw [onRead, hdepth, onReadN_header h _ (by rw [List.nil_append, h.bytes])]
  by_cases hext : extra = []
  · rw [if_pos hext, hext, List.nil_append, if_pos (by simp [h.key_length])]
    rw [hext] at hpayload
    exact hpayload _
  · rw [if_neg hext, if_pos (by simp [h.key_length]),
      onReadN_length h hext _ (List.append_nil _) (by simp [h.key_length])]
    exact hpayload _

/-- **The keys that are honoured.** Of a frame that comes in one chunk, the key is
read back and the message handed over iff the key begins with a non-zero octet. -/
theorem every_key_iff {msg : Bytes} (hmsg : msg ≠ []) (hlen : msg.length < 2 ^ 63)
    (a b c d : UInt8) :
    ∃ F, makeFrameData msg [a, b, c, d] = some F ∧
      ((({} : WSFrame).onRead F).1.maskCodes = [a, b, c, d] ∧
        (({} : WSFrame).onRead F).2 = .handleFrame msg ↔ a ≠ 0) := by
  have hkey : ([a, b, c, d] : Bytes) = [] ∨ ([a, b, c, d] : Bytes).length = 4 := .inr rfl
  have hF := makeFrameData_eq (hlen.trans (by decide)) hkey
  refine ⟨_, hF, ?_⟩
  constructor
  · rintro ⟨hkey, -⟩ rfl
    exact onRead_maskCodes (by simp) _ (congrArg List.head? hkey)
  · intro ha
    rw [onRead_whole (masked_of_makeFrameData hmsg ha hF), readPayload_eq]
    refine ⟨rfl, ?_⟩
    simp [keyed, wsUnmask_eq, xorKey_xorKey]

/-- The theorem at a key that begins with a zero octet. -/
theorem every_key_iff_zero :
    ∃ F, makeFrameData [104] [0, 1, 2, 3] = some F ∧
      ((({} : WSFrame).onRead F).1.maskCodes = [0, 1, 2, 3] ∧
        (({} : WSFrame).onRead F).2 = .handleFrame [104] ↔ (0 : UInt8) ≠ 0) :=
  every_key_iff (by decide) (by decide) 0 1 2 3

/-- The key 00 01 02 03 is read back as 01 02 03, and the message is garbled. -/
theorem zero_octet_garbles :
    makeFrameData [104] [0, 1, 2, 3] = some [129, 129, 0, 1, 2, 3, 104] ∧
      ¬ ((({} : WSFrame).onRead [129, 129, 0, 1, 2, 3, 104]).1.maskCodes = [0, 1, 2, 3] ∧
        (({} : WSFrame).onRead [129, 129, 0, 1, 2, 3, 104]).2 = .handleFrame [104]) := by
  decide

/-! ### Frames without payload -/

/-- `F` is a masked frame whose payload is empty, however its length is written. -/
structure Empty (mark len : UInt8) (extra key F : Bytes) : Prop where
  bytes : F = mark :: len :: (extra ++ key)
  opcode : (Header.ofBytes mark len).opcode ≠ 0x8
  mask : (Header.ofBytes mark len).mask ≠ 0
  size : (extra = [] ∧ (Header.ofBytes mark len).lenBytes = none ∧
      (Header.ofBytes mark len).len1 = 0) ∨
    (extra ≠ [] ∧ (Header.ofBytes mark len).lenBytes = some extra.length ∧ ofBe extra = 0)
  key_length : key.length = 4
  key_octet : key.head? ≠ some 0

/-- The object while the header of an empty frame is read, from its third byte on. -/
def emptyHeaded (mark len : UInt8) (extra q : Bytes) : WSFrame where
  header := some (Header.ofBytes mark len)
  buf := q
  remainLen := extra.length + 4
  dataLen := if extra = [] then some 0 else none
  mode := opcodeMode (Header.ofBytes mark len) none

/-- The object when an empty frame has been read: it waits for the next chunk. -/
def emptyRead (mark len : UInt8) (key : Bytes) : WSFrame where
  header := some (Header.ofBytes mark len)
  maskCodes := key
  remainLen := 0
  dataLen := some 0
  readingHead := false
  mode := opcodeMode (Header.ofBytes mark len) none

/-- The object that has been given the bytes `p` of an empty frame. -/
def emptyAt (mark len : UInt8) (extra key p : Bytes) : WSFrame :=
  if p.length < 2 then { buf := p }
  else if p.length < 2 + extra.length + 4 then emptyHeaded mark len extra (p.drop 2)
  else emptyRead mark len key

section Empty

variable {mark len : UInt8} {extra key F : Bytes}

theorem Empty.length (h : Empty mark len extra key F) : F.length = 2 + extra.length + 4 := by
  rw [h.bytes]
  simp [h.key_length]
  omega

/-- The key is all that is left, and nothing is left after it. -/
theorem onReadN_empty_key (h : Empty mark len extra key F) (depth : Nat) {q s : Bytes}
    (hbuf : q ++ s = key) :
    onReadN (depth + 1) (emptyHeaded mark len [] q) s = (emptyRead mark len key, .returned) := by
  have hcodes : (maskOctets 4 (ofBe key)).reverse = key := by
    rw [maskOctets_key h.key_length, List.dropWhile_eq_self_iff]
    intro hpos hzero
    apply h.key_octet
    rw [List.head?_eq_getElem?, List.getElem?_eq_getElem hpos]
    exact congrArg some (of_decide_eq_true hzero)
  have hunpack : structUnpack 4 key = some (ofBe key) := by
    rw [structUnpack, if_pos h.key_length.ge, List.take_of_length_le h.key_length.le]
  have hdrop : key.drop 4 = [] := List.drop_of_length_le h.key_length.le
  have hlong : ¬ ((key.length : Int) < 4) := by
    rw [h.key_length]
    decide
  simp only [onReadN, emptyHeaded, if_true, hbuf, List.length_nil, Nat.cast_zero, zero_add]
  rw [if_neg (fun hc => hlong hc.2), if_pos ⟨h.mask, trivial⟩, hunpack]
  simp only [hdrop, hcodes, List.length_nil, lt_irrefl, if_false]
  rfl

/-- The rest of the header is read when all of it is there. -/
theorem onReadN_emptyHeaded (h : Empty mark len extra key F) (depth : Nat) {q s : Bytes}
    (hbuf : q ++ s = extra ++ key) :
    onReadN (depth + 2) (emptyHeaded mark len extra q) s =
      (emptyRead mark len key, .returned) := by
  rcases h.size with ⟨hext, -, -⟩ | ⟨hne, hwidth, hnum⟩
  · subst hext
    exact onReadN_empty_key h _ hbuf
  · have hlong : ¬ (((extra ++ key).length : Int) < (extra.length : Int) + 4) := by
      rw [List.length_append, h.key_length]
      omega
    have hunpack : structUnpack extra.length (extra ++ key) = some 0 := by
      rw [structUnpack, if_pos (by rw [List.length_append]; omega), List.take_left, hnum]
    have hpos : 0 < key.length := by
      rw [h.key_length]
      decide
    rw [← onReadN_empty_key h depth (List.append_nil key), onReadN]
    simp only [emptyHeaded, if_true, if_neg hne, hbuf]
    rw [if_neg (fun hc => hlong hc.2), hwidth, Option.bind_some, hunpack]
    simp only [Option.map_some, List.drop_left, if_neg h.mask, if_pos hpos]
    congr 2
    simp

theorem onReadN_empty_short {q s : Bytes} (depth : Nat)
    (hshort : (q ++ s).length < extra.length + 4) :
    onReadN (depth + 1) (emptyHeaded mark len extra q) s =
      (emptyHeaded mark len extra (q ++ s), .returned) := by
  have hless : ((q ++ s).length : Int) < (extra.length : Int) + 4 := by exact_mod_cast hshort
  simp only [onReadN, emptyHeaded, if_true]
  rw [if_pos ⟨trivial, hless⟩]

theorem onReadN_empty_header (h : Empty mark len extra key F) {q s rest : Bytes} (depth : Nat)
    (hbuf : q ++ s = mark :: len :: rest) :
    onReadN (depth + 1) { buf := q } s =
      if 0 < rest.length then onReadN depth (emptyHeaded mark len extra rest) []
      else (emptyHeaded mark len extra rest, .returned) := by
  have hopened : opened (Header.ofBytes mark len) rest = emptyHeaded mark len extra rest := by
    rcases h.size with ⟨hext, hnone, hzero⟩ | ⟨hne, hwidth, -⟩
    · simp only [opened, setHeader, hnone, hzero, if_neg h.mask, hext, emptyHeaded]
      rfl
    · simp only [opened, setHeader, hwidth, if_neg h.mask, if_neg hne, emptyHeaded]
      rfl
  rw [onReadN_first depth hbuf, if_neg h.opcode, hopened]

/-- From its third byte on. -/
theorem onReadN_empty_body (h : Empty mark len extra key F) {q s : Bytes} {depth : Nat}
    (hpre : q ++ s <+: extra ++ key) (hdepth : (q ++ s).length < depth) :
    onReadN depth (emptyHeaded mark len extra q) s =
      (emptyAt mark len extra key (mark :: len :: (q ++ s)), .returned) := by
  have hlen : (mark :: len :: (q ++ s)).length = 2 + (q ++ s).length := by
    rw [List.length_cons, List.length_cons]
    omega
  rw [emptyAt, if_neg (by omega)]
  by_cases hshort : (q ++ s).length < extra.length + 4
  · obtain ⟨depth, rfl⟩ := Nat.exists_eq_add_of_lt (Nat.zero_lt_of_lt hdepth)
    rw [if_pos (by omega), onReadN_empty_short _ hshort]
    rfl
  · obtain ⟨depth, rfl⟩ := Nat.exists_eq_add_of_le' (by omega : 2 ≤ depth)
    have hall : q ++ s = extra ++ key :=
      hpre.eq_of_length_le (by rw [List.length_append, h.key_length]; omega)
    rw [if_neg (by omega), onReadN_emptyHeaded h depth hall]

/-- One call of `on_read` on bytes of an empty frame: it returns. -/
theorem onRead_empty (h : Empty mark len extra key F) {p s : Bytes} (hp : p.length < F.length)
    (hpre : p ++ s <+: F) :
    (emptyAt mark len extra key p).onRead s = (emptyAt mark len extra key (p ++ s), .returned) := by
  have hFlen := h.length
  have hbytes := h.bytes
  unfold onRead
  by_cases hfirst : p.length < 2
  · rw [emptyAt, if_pos hfirst]
    by_cases hshort : (p ++ s).length < 2
    · rw [emptyAt, if_pos hshort]
      exact onReadN_few _ hshort
    · rw [hbytes] at hpre
      obtain ⟨rest, hrest, hpre⟩ := eq_cons_cons_of_prefix hshort hpre
      have hlen := congrArg List.length hrest
      simp only [List.length_append, List.length_cons] at hlen
      rw [onReadN_empty_header h _ hrest, hrest]
      split
      · rw [onReadN_empty_body h (by rwa [List.append_nil])
          (by rw [List.append_nil]; dsimp only; omega), List.append_nil]
      · have hnil : rest = [] := List.length_eq_zero_iff.mp (by omega)
        rw [hnil, emptyAt, if_neg (by simp), if_pos (by simp)]
        rfl
  · rw [hbytes] at hpre
    obtain ⟨q, rfl, -⟩ := eq_cons_cons_of_prefix hfirst ((List.prefix_append p s).trans hpre)
    rw [List.cons_append, List.cons_append, List.cons_prefix_cons, List.cons_prefix_cons] at hpre
    rw [emptyAt, if_neg hfirst, if_pos (by omega)]
    exact onReadN_empty_body h hpre.2.2 (by simp [emptyHeaded])

/-- The next chunk makes `remain_len` negative. -/
theorem onRead_emptyRead (h : Empty mark len extra key F) {s : Bytes} (hs : s ≠ []) :
    ((emptyRead mark len key).onRead s).2 = .returned ∧
      Stuck ((emptyRead mark len key).onRead s).1 := by
  have hkey : key ≠ [] := by
    rintro rfl
    cases h.key_length
  have hpos := List.length_pos_iff.mpr hs
  rw [onRead, onReadN_counting ⟨rfl, rfl, .inr hkey⟩ rfl, readPayload_eq,
    if_neg (by simp [emptyRead, hs])]
  refine ⟨rfl, rfl, rfl, rfl, hkey, ?_⟩
  simp only [emptyRead, List.nil_append]
  omega

end Empty

end WSFrame

namespace WSHandle

open WSFrame

variable {mark len : UInt8} {extra key F : Bytes} {h : WSHandle} {chunks later : List Bytes}

/-- No call is made of the handle while an empty frame is read. -/
theorem handleMessages_empty (hF : Empty mark len extra key F) (hne : ∀ c ∈ chunks, c ≠ [])
    {p : Bytes} (hcur : h.curFrame.getD {} = emptyAt mark len extra key p)
    (hcut : p ++ chunks.flatten <+: F) :
    (chunks.foldl handleMessage h).calls = h.calls ∧
      (chunks.foldl handleMessage h).curFrame.getD {} =
        emptyAt mark len extra key (p ++ chunks.flatten) := by
  induction chunks generalizing h p with
  | nil =>
    rw [List.flatten_nil, List.append_nil]
    exact ⟨rfl, hcur⟩
  | cons c cs ih =>
    rw [List.flatten_cons, ← List.append_assoc] at hcut ⊢
    have hpre : p ++ c <+: F := (List.prefix_append _ _).trans hcut
    have hp : p.length < F.length := by
      have hle := hpre.length_le
      have hc := List.length_pos_iff.mpr (hne c List.mem_cons_self)
      rw [List.length_append] at hle
      omega
    have hstep : h.handleMessage c =
        { h with curFrame := some (emptyAt mark len extra key (p ++ c)) } := by
      simp only [handleMessage, hcur, onRead_empty hF hp hpre]
    rw [List.foldl_cons, hstep]
    exact ih (fun c' hc' => hne c' (List.mem_cons_of_mem c hc')) rfl hcut

/-- Nor is any call made afterwards. -/
theorem handleMessages_after_empty (hF : Empty mark len extra key F)
    (hcur : h.curFrame.getD {} = emptyRead mark len key) (hne : ∀ c ∈ later, c ≠ []) :
    (later.foldl handleMessage h).calls = h.calls := by
  cases later with
  | nil => rfl
  | cons c cs =>
      obtain ⟨hret, hstuck⟩ := onRead_emptyRead hF (hne c List.mem_cons_self)
      have hstep : h.handleMessage c =
          { h with curFrame := some ((emptyRead mark len key).onRead c).1 } := by
        simp only [handleMessage, hcur, hret]
      rw [List.foldl_cons, hstep, handleMessages_stuck hstuck rfl]

/-- The chunks hold an empty frame, and `later` the frame of `msg`: the empty string
is handed over with the last chunk of its frame and no earlier, and then `msg`. -/
def Completes (h : WSHandle) (chunks later : List Bytes) (msg : Bytes) : Prop :=
  (chunks.dropLast.foldl handleMessage h).calls = h.calls ∧
    (chunks.foldl handleMessage h).calls = h.calls ++ [.handleFrame []] ∧
    ((chunks ++ later).foldl handleMessage h).calls =
      h.calls ++ [.handleFrame [], .handleFrame msg]

instance (h : WSHandle) (chunks later : List Bytes) (msg : Bytes) :
    Decidable (Completes h chunks later msg) :=
  inferInstanceAs (Decidable (_ ∧ _ ∧ _))

/-- **Empty frames.** A masked data frame without payload, whose key begins with a
non-zero octet, is never handed over, however it is cut; and no call of the
handle is made any more, whatever comes later. -/
theorem empty_never_completes (hcur : h.curFrame = none)
    (hF : Empty mark len extra key F) (hne : ∀ c ∈ chunks, c ≠ []) (hcut : chunks.flatten = F)
    (hlater : ∀ c ∈ later, c ≠ []) (msg : Bytes) :
    ¬ Completes h chunks later msg ∧
      ((chunks ++ later).foldl handleMessage h).calls = h.calls := by
  obtain ⟨hcalls, hread⟩ := handleMessages_empty (h := h) (p := []) hF hne (by rw [hcur]; rfl)
    (by rw [hcut]; exact List.prefix_rfl)
  have hlength := hF.length
  rw [List.nil_append, hcut, emptyAt, if_neg (by omega), if_neg (by omega)] at hread
  have hsilent : ((chunks ++ later).foldl handleMessage h).calls = h.calls := by
    rw [List.foldl_append, handleMessages_after_empty hF hread hlater, hcalls]
  refine ⟨?_, hsilent⟩
  rintro ⟨-, hempty, -⟩
  rw [hcalls] at hempty
  exact List.cons_ne_nil _ _ (List.self_eq_append_right.mp hempty)

/-- The theorem at an empty frame in one chunk, and the frame of a message. -/
theorem empty_never_completes_hi :
    ¬ Completes {} [[129, 128, 1, 2, 3, 4]] [[129, 129, 1, 2, 3, 4, 105]] [104] ∧
      (([[129, 128, 1, 2, 3, 4]] ++ [[129, 129, 1, 2, 3, 4, 105]] : List Bytes).foldl
        handleMessage {}).calls = [] :=
  empty_never_completes (h := {}) rfl
    (F := [129, 128, 1, 2, 3, 4]) ⟨rfl, by decide, by decide, .inl ⟨rfl, rfl, rfl⟩, rfl, by decide⟩
    (by decide) rfl (by decide) [104]

/-- An empty frame, and the frame of a message after it: nothing is handed over. -/
theorem empty_frame_lost :
    makeFrameData [104] [1, 2, 3, 4] = some [129, 129, 1, 2, 3, 4, 105] ∧
      ¬ Completes {} [[129, 128, 1, 2, 3, 4]] [[129, 129, 1, 2, 3, 4, 105]] [104] := by
  decide

end WSHandle

end MixServer.Script
