import MixServer.Script.WSRead

/-!
Reading an unmasked frame.

The mask stage is what ends the reading of a header. Without it, a frame with a
short length is read in header mode to its end, and one with an extended length
keeps in `buf` the payload bytes that came with its length field; either way
bytes of `buf` are counted again with the next chunk. `unmasked_iff` says which
cuts of a frame survive that.
-/

namespace MixServer.Script

open Lib

namespace WSFrame

/-- What is handed over by the call of `on_read` that ends like this. -/
def Outcome.data : Outcome → Option Bytes
  | handleFrame data => some data
  | returned | handleClose | raised => none

/-- What the calls of `on_read` hand over that give the object the chunks. -/
def delivered (f : WSFrame) (chunks : List Bytes) : List Bytes :=
  (f.outcomes chunks).filterMap Outcome.data

theorem delivered_cons (f : WSFrame) (c : Bytes) (cs : List Bytes) :
    f.delivered (c :: cs) = (f.onRead c).2.data.toList ++ (f.onRead c).1.delivered cs := by
  rw [delivered, outcomes, List.filterMap_cons]
  cases (f.onRead c).2.data with
  | none => rfl
  | some data => rfl

/-- `F` is the unmasked text frame of a non-empty message. -/
structure Plain (msg extra : Bytes) (len : UInt8) (F : Bytes) : Prop where
  bytes : F = 129 :: len :: (extra ++ msg)
  nonempty : 0 < msg.length
  opcode : (Header.ofBytes 129 len).opcode = 1
  mask : (Header.ofBytes 129 len).mask = 0
  size : (extra = [] ∧ (Header.ofBytes 129 len).lenBytes = none ∧
      (Header.ofBytes 129 len).len1 = msg.length) ∨
    (extra ≠ [] ∧ (Header.ofBytes 129 len).lenBytes = some extra.length ∧ ofBe extra = msg.length)

theorem plain_header_bits : ∀ l < 128,
    (Header.ofBytes 129 (UInt8.ofNat l)).opcode = 1 ∧
      (Header.ofBytes 129 (UInt8.ofNat l)).mask = 0 ∧
      (Header.ofBytes 129 (UInt8.ofNat l)).len1 = l := by
  decide

/-- `make_frame_data` without a key writes such frames. -/
theorem plain_of_makeFrameData {msg : Bytes} (hmsg : msg ≠ []) (hlen : msg.length < 256 ^ 8) :
    ∃ F, makeFrameData msg [] = some F ∧
      Plain msg (extLen msg.length) (UInt8.ofNat (lenBits msg.length)) F := by
  refine ⟨_, makeFrameData_eq hlen (.inl rfl), ?_⟩
  obtain ⟨hopcode, hmask, hlen1⟩ := plain_header_bits _ (lenBits_lt msg.length)
  refine ⟨?_, List.length_pos_iff.mpr hmsg, hopcode, hmask, ?_⟩
  · rw [maskBit, if_pos rfl, Nat.zero_or, xorKey_nil, List.nil_append]
  · unfold Header.lenBytes
    rw [hlen1]
    unfold extLen lenBits
    split
    · exact .inr ⟨by simp [← List.length_pos_iff], by simp, ofBe_beBytes hlen⟩
    · split
      · exact .inr ⟨by simp [← List.length_pos_iff], by simp, ofBe_beBytes (by omega)⟩
      · exact .inl ⟨rfl, by rw [if_neg (by omega), if_neg (by omega)], rfl⟩

/-- The object once the first two bytes have been read and `q` waits in `buf`. -/
def plainHeaded (len : UInt8) (n : Nat) (extra q : Bytes) : WSFrame where
  header := some (Header.ofBytes 129 len)
  buf := q
  remainLen := if extra = [] then n else extra.length
  dataLen := if extra = [] then some n else none
  mode := some .text

/-- The object that has left the header of a long frame: `r` came with it and
stays in `buf`, and `y` is what has been counted as payload. -/
def streaming (len : UInt8) (n : Nat) (r y : Bytes) : WSFrame where
  header := some (Header.ofBytes 129 len)
  buf := r
  remainLen := n - y.length
  dataLen := some n
  payload := y
  readingHead := false
  mode := some .text

/-- The object that has been given the bytes `p` of the header. -/
def plainAt (len : UInt8) (n : Nat) (extra p : Bytes) : WSFrame :=
  if p.length < 2 then { buf := p } else plainHeaded len n extra (p.drop 2)

section Plain

variable {msg extra F : Bytes} {len : UInt8} {n : Nat}

/-! ### The stages -/

theorem onReadN_plain_header (h : Plain msg extra len F) {q s rest : Bytes} (depth : Nat)
    (hbuf : q ++ s = 129 :: len :: rest) :
    onReadN (depth + 1) { buf := q } s =
      if 0 < rest.length then onReadN depth (plainHeaded len msg.length extra rest) []
      else (plainHeaded len msg.length extra rest, .returned) := by
  have hopened : opened (Header.ofBytes 129 len) rest = plainHeaded len msg.length extra rest := by
    rcases h.size with ⟨hext, hnone, hlen1⟩ | ⟨hne, hwidth, -⟩
    · simp only [opened, setHeader, opcodeMode, h.opcode, h.mask, hnone, hlen1, if_pos hext,
        plainHeaded]
      rfl
    · simp only [opened, setHeader, opcodeMode, h.opcode, h.mask, hwidth, if_neg hne, plainHeaded]
      rfl
  rw [onReadN_first depth hbuf, if_neg (by rw [h.opcode]; decide), hopened]

/-- Less than the header, or less than a short frame: it is kept. -/
theorem onReadN_plain_wait {q s : Bytes} (depth : Nat)
    (hshort : (q ++ s).length < if extra = [] then n else extra.length) :
    onReadN (depth + 1) (plainHeaded len n extra q) s =
      (plainHeaded len n extra (q ++ s), .returned) := by
  have hless : ((q ++ s).length : Int) < if extra = [] then (n : Int) else extra.length := by
    split
    · rename_i hext
      rw [if_pos hext] at hshort
      exact_mod_cast hshort
    · rename_i hne
      rw [if_neg hne] at hshort
      exact_mod_cast hshort
  simp only [onReadN, plainHeaded, if_true]
  rw [if_pos ⟨trivial, hless⟩]

/-- A short frame is counted when all of it is in `buf`, and with it, once more,
the chunk that completed it. -/
theorem onReadN_plain_short (h : Plain msg [] len F) {q s : Bytes} (depth : Nat)
    (hbuf : q ++ s = msg) :
    (onReadN (depth + 1) (plainHeaded len msg.length [] q) s).2 =
      if s = [] then .handleFrame msg else .returned := by
  have hcounting : Counting (plainHeaded len msg.length [] q) :=
    ⟨rfl, rfl, .inl (by rintro hd ⟨⟩; exact h.mask)⟩
  rw [onReadN_counting_head hcounting rfl depth (by simp [plainHeaded, hbuf]), readPayload_eq]
  by_cases hs : s = []
  · rw [hs, List.append_nil] at hbuf
    simp [plainHeaded, wsUnmask, hs, hbuf]
  · have hpos := List.length_pos_iff.mpr hs
    rw [if_neg hs, if_neg]
    simp only [plainHeaded, if_true, hbuf, List.length_append]
    omega

theorem counting_streaming (h : Plain msg extra len F) (r y : Bytes) :
    Counting (streaming len msg.length r y) :=
  ⟨rfl, rfl, .inl (by rintro hd ⟨⟩; exact h.mask)⟩

theorem readPayload_streaming (n : Nat) (r y s : Bytes) :
    (streaming len n r y).readPayload s =
      (streaming len n r (y ++ (r ++ s)),
        if (y ++ (r ++ s)).length = n then .handleFrame (y ++ (r ++ s)) else .returned) := by
  have hrem : (n : Int) - y.length - (r ++ s).length = n - (y ++ (r ++ s)).length := by
    simp only [List.length_append, Nat.cast_add]
    omega
  rw [readPayload_eq]
  simp only [streaming, hrem, wsUnmask, if_true]
  congr 1
  by_cases hall : (y ++ (r ++ s)).length = n
  · rw [if_pos hall, if_pos (by omega)]
  · rw [if_neg hall, if_neg (by omega)]

/-- What the call does that is given the bytes `s` in the data stage. -/
theorem onRead_streaming (h : Plain msg extra len F) (r y s : Bytes) :
    (streaming len msg.length r y).onRead s =
      (streaming len msg.length r (y ++ (r ++ s)),
        if (y ++ (r ++ s)).length = msg.length then .handleFrame (y ++ (r ++ s))
        else .returned) := by
  rw [onRead, onReadN_counting (counting_streaming h r y) rfl, readPayload_streaming]

/-- The extended length is read when all of it is there, and the payload bytes
that came with it are counted at once. -/
theorem onReadN_plain_long (h : Plain msg extra len F) (hne : extra ≠ []) {q s r : Bytes}
    (depth : Nat) (hbuf : q ++ s = extra ++ r) :
    onReadN (depth + 2) (plainHeaded len msg.length extra q) s =
      (streaming len msg.length r r,
        if r.length = msg.length then .handleFrame r else .returned) := by
  obtain ⟨-, hwidth, hnum⟩ := h.size.resolve_left fun hs => hne hs.1
  have hlong : ¬ (((extra ++ r).length : Int) < extra.length) := by
    rw [List.length_append]
    omega
  have hunpack : structUnpack extra.length (extra ++ r) = some msg.length := by
    rw [structUnpack, if_pos (by rw [List.length_append]; omega), List.take_left, hnum]
  have hrem : (extra.length : Int) + ((msg.length : Int) - extra.length) = msg.length := by
    omega
  have hstage : onReadN (depth + 2) (plainHeaded len msg.length extra q) s =
      if 0 < r.length then onReadN (depth + 1) (streaming len msg.length r []) []
      else (streaming len msg.length r [], .returned) := by
    rw [onReadN]
    simp only [plainHeaded, if_true, if_neg hne, hbuf]
    rw [if_neg (fun hc => hlong hc.2), hwidth, Option.bind_some, hunpack]
    simp only [Option.map_some, List.drop_left, hrem, h.mask, if_true, streaming, List.length_nil,
      Nat.cast_zero, sub_zero]
  rw [hstage]
  split
  · rw [onReadN_counting (counting_streaming h r []) rfl, readPayload_streaming]
    simp only [List.append_nil, List.nil_append]
  · rename_i hnil
    have hlen := h.nonempty
    have hr : r = [] := List.length_eq_zero_iff.mp (by omega)
    rw [if_neg (by omega), hr]

/-! ### Runs -/

/-- What has been counted as payload after the chunks: each is counted with the
bytes `r` in front of it. -/
def recount (r y : Bytes) (chunks : List Bytes) : Bytes := y ++ (chunks.map (r ++ ·)).flatten

theorem recount_cons (r y c : Bytes) (cs : List Bytes) :
    recount r y (c :: cs) = recount r (y ++ (r ++ c)) cs := by
  simp [recount]

theorem le_length_recount (r y : Bytes) (chunks : List Bytes) :
    y.length ≤ (recount r y chunks).length := by
  rw [recount, List.length_append]
  omega

theorem exists_recount_cons (r y c : Bytes) (cs : List Bytes) (msg : Bytes) :
    (∃ pre, pre <+: c :: cs ∧ recount r y pre = msg) ↔
      y = msg ∨ ∃ pre, pre <+: cs ∧ recount r (y ++ (r ++ c)) pre = msg := by
  constructor
  · rintro ⟨pre, hpre, hmsg⟩
    cases pre with
    | nil => exact .inl (by simpa [recount] using hmsg)
    | cons c' pre =>
        rw [List.cons_prefix_cons] at hpre
        obtain ⟨rfl, hpre⟩ := hpre
        exact .inr ⟨pre, hpre, by rwa [recount_cons] at hmsg⟩
  · rintro (rfl | ⟨pre, hpre, hmsg⟩)
    · exact ⟨[], List.nil_prefix, by simp [recount]⟩
    · exact ⟨c :: pre, List.cons_prefix_cons.mpr ⟨rfl, hpre⟩, by rwa [recount_cons]⟩

/-- What has been counted is handed over when it is as long as the message. -/
theorem handed_eq_iff (y msg : Bytes) :
    (if y.length = msg.length then [y] else []) = [msg] ↔ y = msg := by
  constructor
  · intro hmsg
    split at hmsg
    · exact List.singleton_inj.mp hmsg
    · cases hmsg
  · rintro rfl
    rw [if_pos rfl]

/-- Nothing more is handed over when the length is reached or passed. -/
theorem delivered_streaming_over (h : Plain msg extra len F) {r y : Bytes} {chunks : List Bytes}
    (hne : ∀ c ∈ chunks, c ≠ []) (hy : msg.length ≤ y.length) :
    (streaming len msg.length r y).delivered chunks = [] := by
  induction chunks generalizing y with
  | nil => rfl
  | cons c cs ih =>
    have hpos := List.length_pos_iff.mpr (hne c List.mem_cons_self)
    have hmore : msg.length < (y ++ (r ++ c)).length := by
      simp only [List.length_append]
      omega
    rw [delivered_cons, onRead_streaming h, if_neg hmore.ne']
    exact ih (fun c' hc' => hne c' (List.mem_cons_of_mem c hc')) hmore.le

/-- The message is handed over iff it has been counted when one of the chunks
ends; `y` is what has been counted now. -/
theorem delivered_streaming (h : Plain msg extra len F) {r y : Bytes} {chunks : List Bytes}
    (hne : ∀ c ∈ chunks, c ≠ []) :
    (if y.length = msg.length then [y] else []) ++
        (streaming len msg.length r y).delivered chunks = [msg] ↔
      ∃ pre, pre <+: chunks ∧ recount r y pre = msg := by
  induction chunks generalizing y with
  | nil =>
    simp only [outcomes, delivered, List.filterMap_nil, List.append_nil, List.prefix_nil,
      exists_eq_left, recount, List.map_nil, List.flatten_nil]
    exact handed_eq_iff y msg
  | cons c cs ih =>
    have hpos := List.length_pos_iff.mpr (hne c List.mem_cons_self)
    have hcs : ∀ c ∈ cs, c ≠ [] := fun c' hc' => hne c' (List.mem_cons_of_mem c hc')
    rw [exists_recount_cons]
    by_cases hlt : y.length < msg.length
    · have hdata : (delivered (streaming len msg.length r y) (c :: cs)) =
          (if (y ++ (r ++ c)).length = msg.length then [y ++ (r ++ c)] else []) ++
            delivered (streaming len msg.length r (y ++ (r ++ c))) cs := by
        rw [delivered_cons, onRead_streaming h]
        split
        · rfl
        · rfl
      have hother : y ≠ msg := by
        rintro rfl
        exact absurd hlt (lt_irrefl _)
      rw [if_neg hlt.ne, List.nil_append, hdata, ih hcs, or_iff_right hother]
    · -- the length has been reached: only what has been counted by now can be the message
      have hlonger : ¬ ∃ pre, pre <+: cs ∧ recount r (y ++ (r ++ c)) pre = msg := by
        rintro ⟨pre, -, hmsg⟩
        have hle := le_length_recount r (y ++ (r ++ c)) pre
        rw [hmsg] at hle
        simp only [List.length_append] at hle
        omega
      rw [delivered_streaming_over h hne (not_lt.mp hlt), List.append_nil, handed_eq_iff,
        or_iff_left hlonger]

/-- A short frame that has not ended with its header is never handed over. -/
theorem delivered_short_headed (h : Plain msg [] len F) {q : Bytes} {chunks : List Bytes}
    (hne : ∀ c ∈ chunks, c ≠ []) (hcut : q ++ chunks.flatten = msg) :
    (plainHeaded len msg.length [] q).delivered chunks = [] := by
  induction chunks generalizing q with
  | nil => rfl
  | cons c cs ih =>
    have hc := hne c List.mem_cons_self
    have hcs : ∀ c ∈ cs, c ≠ [] := fun c' hc' => hne c' (List.mem_cons_of_mem c hc')
    rw [List.flatten_cons, ← List.append_assoc] at hcut
    rw [delivered_cons, onRead]
    by_cases hall : q ++ c = msg
    · rw [hall] at hcut
      obtain rfl := WSHandle.eq_nil_of_flatten_eq_nil hcs (List.append_right_eq_self.mp hcut)
      rw [onReadN_plain_short h _ hall, if_neg hc]
      rfl
    · have hshort : (q ++ c).length < msg.length := by
        have hpre : q ++ c <+: msg := hcut ▸ List.prefix_append _ _
        have hle := hpre.length_le
        by_contra hge
        exact hall (hpre.eq_of_length_le (not_lt.mp hge))
      rw [onReadN_plain_wait _ (by rwa [if_pos rfl])]
      exact ih hcs hcut

/-- While the header is not complete its bytes are kept. -/
theorem onRead_header_wait (h : Plain msg extra len F) {p c : Bytes} (hpre : p ++ c <+: F)
    (hshort : (p ++ c).length < 2 + extra.length) :
    (plainAt len msg.length extra p).onRead c =
      (plainAt len msg.length extra (p ++ c), .returned) := by
  have hbytes := h.bytes
  unfold onRead
  by_cases hfew : (p ++ c).length < 2
  · have hp : p.length < 2 := by
      rw [List.length_append] at hfew
      omega
    rw [plainAt, if_pos hp, plainAt, if_pos hfew]
    exact onReadN_few _ hfew
  · have hne : extra ≠ [] := by
      rintro rfl
      exact hfew hshort
    have hwait : ∀ {q s : Bytes} (depth : Nat), (q ++ s).length < extra.length →
        onReadN (depth + 1) (plainHeaded len msg.length extra q) s =
          (plainHeaded len msg.length extra (q ++ s), .returned) := fun depth hlt =>
      onReadN_plain_wait depth (by rwa [if_neg hne])
    rw [plainAt, plainAt, if_neg hfew]
    split
    · rw [hbytes] at hpre
      obtain ⟨rest, hrest, -⟩ := eq_cons_cons_of_prefix hfew hpre
      have hlen := congrArg List.length hrest
      simp only [List.length_append, List.length_cons] at hlen hshort
      obtain ⟨depth, hdepth⟩ := Nat.exists_eq_add_of_le' (by omega : 1 ≤ p.length + c.length)
      rw [onReadN_plain_header h _ hrest, hrest, hdepth, hwait depth (by simp; omega),
        List.append_nil]
      split
      · rfl
      · rfl
    · rename_i hp
      rw [hbytes] at hpre
      obtain ⟨q, rfl, -⟩ := eq_cons_cons_of_prefix hp ((List.prefix_append p c).trans hpre)
      simp only [List.cons_append, List.length_cons] at hshort
      exact hwait (q := q) _ (by omega)

/-- The end of a long header: what came with it is counted at once. -/
theorem onRead_header_long (h : Plain msg extra len F) (hne : extra ≠ []) {p c r : Bytes}
    (hall : p ++ c = 129 :: len :: (extra ++ r)) :
    (plainAt len msg.length extra p).onRead c =
      (streaming len msg.length r r,
        if r.length = msg.length then .handleFrame r else .returned) := by
  have hextra := List.length_pos_iff.mpr hne
  have hlen := congrArg List.length hall
  simp only [List.length_append, List.length_cons] at hlen
  unfold onRead
  rw [plainAt]
  split
  · obtain ⟨depth, hdepth⟩ := Nat.exists_eq_add_of_le' (by omega : 2 ≤ p.length + c.length)
    rw [onReadN_plain_header h _ hall, if_pos (by rw [List.length_append]; omega), hdepth,
      onReadN_plain_long h hne depth (List.append_nil _)]
  · rename_i hp
    obtain ⟨q, rfl, -⟩ := eq_cons_cons_of_prefix hp (hall ▸ List.prefix_append p c)
    rw [List.cons_append, List.cons_append, List.cons.injEq, List.cons.injEq] at hall
    obtain ⟨depth, hdepth⟩ : ∃ depth, q.length + c.length + 1 = depth + 2 :=
      ⟨q.length + c.length - 1, by
        have hlen := congrArg List.length hall.2.2
        simp only [List.length_append] at hlen
        omega⟩
    change onReadN (q.length + c.length + 1) (plainHeaded len msg.length extra q) c = _
    rw [hdepth, onReadN_plain_long h hne depth hall.2.2]

/-- The first two bytes of a short frame: the message is handed over if all of it
came with them. -/
theorem onRead_header_short (h : Plain msg [] len F) {p c r : Bytes} (hp : p.length < 2)
    (hall : p ++ c = 129 :: len :: r) :
    (r.length < msg.length →
      (plainAt len msg.length [] p).onRead c = (plainHeaded len msg.length [] r, .returned)) ∧
    (r = msg → ((plainAt len msg.length [] p).onRead c).2 = .handleFrame msg) := by
  have hlen := congrArg List.length hall
  simp only [List.length_append, List.length_cons] at hlen
  obtain ⟨depth, hdepth⟩ := Nat.exists_eq_add_of_le' (by omega : 1 ≤ p.length + c.length)
  unfold onRead
  rw [plainAt, if_pos hp, onReadN_plain_header h _ hall, hdepth]
  constructor
  · intro hshort
    rw [onReadN_plain_wait depth (by rwa [if_pos rfl, List.append_nil]), List.append_nil]
    split
    · rfl
    · rfl
  · rintro rfl
    rw [if_pos h.nonempty, onReadN_plain_short h depth (List.append_nil _), if_pos rfl]

/-- Whether the message is handed over when `r` came with the end of the header
and the chunks `later` follow. -/
def Survives (msg r : Bytes) (later : List Bytes) : Prop :=
  if msg.length ≤ 125 then later = [] else ∃ pre, pre <+: later ∧ recount r r pre = msg

/-- The chunk that ends the header decides. -/
theorem delivered_header (h : Plain msg extra len F) (hsize : extra = [] ↔ msg.length ≤ 125)
    {p c r : Bytes} {later : List Bytes} (hne : ∀ x ∈ c :: later, x ≠ [])
    (hp : p.length < 2 + extra.length) (hall : p ++ c = 129 :: len :: (extra ++ r))
    (hcut : r ++ later.flatten = msg) :
    (plainAt len msg.length extra p).delivered (c :: later) = [msg] ↔ Survives msg r later := by
  have hlater : ∀ x ∈ later, x ≠ [] := fun x hx => hne x (List.mem_cons_of_mem c hx)
  rw [delivered_cons]
  by_cases hext : extra = []
  · subst hext
    rw [List.nil_append] at hall
    obtain ⟨hwait, hdone⟩ := onRead_header_short h hp hall
    rw [Survives, if_pos (hsize.mp rfl)]
    by_cases hr : r = msg
    · obtain rfl := WSHandle.eq_nil_of_flatten_eq_nil hlater
        (List.append_right_eq_self.mp (hr ▸ hcut))
      rw [hdone hr]
      exact iff_of_true rfl rfl
    · have hpre : r <+: msg := hcut ▸ List.prefix_append _ _
      have hshort : r.length < msg.length := by
        by_contra hge
        exact hr (hpre.eq_of_length_le (not_lt.mp hge))
      rw [hwait hshort, delivered_short_headed h hlater hcut]
      refine iff_of_false (by simp [Outcome.data]) ?_
      rintro rfl
      exact hr (by rwa [List.flatten_nil, List.append_nil] at hcut)
  · rw [Survives, if_neg (fun hle => hext (hsize.mpr hle)), onRead_header_long h hext hall,
      ← delivered_streaming h hlater]
    split
    · rfl
    · rfl

/-- One of the chunks, behind the bytes `p`, ends the header, and the message survives
what it brings of the payload. -/
def HeaderEnds (len : UInt8) (extra msg p : Bytes) (chunks : List Bytes) : Prop :=
  ∃ before c later r, chunks = before ++ c :: later ∧
    (p ++ before.flatten).length < 2 + extra.length ∧
    p ++ before.flatten ++ c = 129 :: len :: (extra ++ r) ∧ Survives msg r later

/-- A chunk within the header is not the one. -/
theorem headerEnds_within {p c : Bytes} {cs : List Bytes}
    (hshort : (p ++ c).length < 2 + extra.length) :
    HeaderEnds len extra msg p (c :: cs) ↔ HeaderEnds len extra msg (p ++ c) cs := by
  constructor
  · rintro ⟨before, c', later, r, heq, hbefore, hall, hr⟩
    cases before with
    | nil =>
        rw [List.nil_append, List.cons.injEq] at heq
        obtain ⟨rfl, rfl⟩ := heq
        rw [List.flatten_nil, List.append_nil] at hall
        have hlen := congrArg List.length hall
        simp only [List.length_append, List.length_cons] at hlen hshort
        omega
    | cons x before =>
        rw [List.cons_append, List.cons.injEq] at heq
        obtain ⟨rfl, rfl⟩ := heq
        rw [List.flatten_cons, ← List.append_assoc] at hbefore hall
        exact ⟨before, c', later, r, rfl, hbefore, hall, hr⟩
  · rintro ⟨before, c', later, r, rfl, hbefore, hall, hr⟩
    refine ⟨c :: before, c', later, r, rfl, ?_, ?_, hr⟩
    · rwa [List.flatten_cons, ← List.append_assoc]
    · rwa [List.flatten_cons, ← List.append_assoc]

/-- The chunk that ends the header is the one. -/
theorem headerEnds_now {p c r : Bytes} {cs : List Bytes} (hp : p.length < 2 + extra.length)
    (hr : p ++ c = 129 :: len :: (extra ++ r)) :
    HeaderEnds len extra msg p (c :: cs) ↔ Survives msg r cs := by
  constructor
  · rintro ⟨before, c', later, r', heq, hbefore, hall, hsurvives⟩
    cases before with
    | nil =>
        rw [List.nil_append, List.cons.injEq] at heq
        obtain ⟨rfl, rfl⟩ := heq
        rw [List.flatten_nil, List.append_nil, hr, List.cons.injEq, List.cons.injEq,
          List.append_cancel_left_eq] at hall
        rwa [hall.2.2]
    | cons x before =>
        rw [List.cons_append, List.cons.injEq] at heq
        obtain ⟨rfl, rfl⟩ := heq
        have hlen := congrArg List.length hr
        rw [List.flatten_cons, ← List.append_assoc, List.length_append] at hbefore
        simp only [List.length_cons, List.length_append] at hlen hbefore
        omega
  · intro hsurvives
    exact ⟨[], c, cs, r, rfl, by rwa [List.flatten_nil, List.append_nil],
      by rwa [List.flatten_nil, List.append_nil], hsurvives⟩

/-- The chunk that ends the header is found, and decides. -/
theorem delivered_plainAt (h : Plain msg extra len F) (hsize : extra = [] ↔ msg.length ≤ 125)
    {p : Bytes} {chunks : List Bytes} (hne : ∀ c ∈ chunks, c ≠ [])
    (hp : p.length < 2 + extra.length) (hcut : p ++ chunks.flatten = F) :
    (plainAt len msg.length extra p).delivered chunks = [msg] ↔
      HeaderEnds len extra msg p chunks := by
  induction chunks generalizing p with
  | nil =>
    rw [List.flatten_nil, List.append_nil] at hcut
    have hlen := congrArg List.length (hcut.trans h.bytes)
    simp only [List.length_cons, List.length_append] at hlen
    omega
  | cons c cs ih =>
    have hcs : ∀ x ∈ cs, x ≠ [] := fun x hx => hne x (List.mem_cons_of_mem c hx)
    rw [List.flatten_cons, ← List.append_assoc] at hcut
    have hpre : p ++ c <+: F := hcut ▸ List.prefix_append _ _
    by_cases hshort : (p ++ c).length < 2 + extra.length
    · rw [delivered_cons, onRead_header_wait h hpre hshort, headerEnds_within hshort]
      exact ih hcs hshort hcut
    · obtain ⟨r, hr⟩ : ∃ r, p ++ c = 129 :: len :: (extra ++ r) := by
        have hhead : 129 :: len :: extra <+: F := by
          rw [h.bytes, List.cons_prefix_cons, List.cons_prefix_cons]
          exact ⟨rfl, rfl, List.prefix_append _ _⟩
        obtain ⟨r, hr⟩ := List.prefix_of_prefix_length_le hhead hpre
          (by simp only [List.length_cons]; omega)
        exact ⟨r, hr.symm⟩
      have hrest : r ++ cs.flatten = msg := by
        rw [hr, h.bytes, List.cons_append, List.cons_append, List.cons.injEq, List.cons.injEq,
          List.append_assoc, List.append_cancel_left_eq] at hcut
        exact hcut.2.2
      rw [delivered_header h hsize hne hp hr hrest, headerEnds_now hp hr]

end Plain

/-- The octets of an unmasked frame before its payload. -/
def headerLength (msg : Bytes) : Nat := 2 + (extLen msg.length).length

/-- **Unmasked frames.** The frame that `make_frame_data` writes without a key
arrives in any non-empty chunks; `c` is the chunk that ends its header, and `r`
is what it brings of the payload. `handle_frame` is called exactly once, with the
message, iff this call of `on_read` is the last one (a message of up to 125
bytes), or `r`, and `r` again in front of each chunk that follows, spell the
message at the end of one of them (a longer message). -/
theorem unmasked_iff {msg : Bytes} (hmsg : msg ≠ []) (hlen : msg.length < 2 ^ 63) :
    ∃ F, makeFrameData msg [] = some F ∧
      ∀ chunks : List Bytes, (∀ c ∈ chunks, c ≠ []) → chunks.flatten = F →
        (({} : WSFrame).delivered chunks = [msg] ↔
          ∃ before c later r, chunks = before ++ c :: later ∧
            before.flatten.length < headerLength msg ∧
            before.flatten ++ c = F.take (headerLength msg) ++ r ∧ Survives msg r later) := by
  obtain ⟨F, hF, hplain⟩ := plain_of_makeFrameData hmsg (hlen.trans (by decide))
  refine ⟨F, hF, ?_⟩
  intro chunks hne hcut
  have hsize : extLen msg.length = [] ↔ msg.length ≤ 125 := by
    rw [← List.length_eq_zero_iff, extLen]
    split
    · rw [length_beBytes]
      omega
    · split
      · rw [length_beBytes]
        omega
      · rw [List.length_nil]
        omega
  have hhead : F.take (headerLength msg) =
      129 :: UInt8.ofNat (lenBits msg.length) :: extLen msg.length := by
    rw [hplain.bytes, ← List.cons_append, ← List.cons_append, List.take_left']
    simp only [headerLength, List.length_cons]
    omega
  have hrun := delivered_plainAt (p := []) hplain hsize hne (by simp) hcut
  simp only [HeaderEnds, List.nil_append] at hrun
  rw [hhead]
  exact hrun

/-- The theorem at a short message. -/
theorem unmasked_iff_hi :
    ∃ F, makeFrameData [104, 105] [] = some F ∧
      ∀ chunks : List Bytes, (∀ c ∈ chunks, c ≠ []) → chunks.flatten = F →
        (({} : WSFrame).delivered chunks = [[104, 105]] ↔
          ∃ before c later r, chunks = before ++ c :: later ∧
            before.flatten.length < headerLength [104, 105] ∧
            before.flatten ++ c = F.take (headerLength [104, 105]) ++ r ∧
            Survives [104, 105] r later) :=
  unmasked_iff (by decide) (by decide)

/-- A frame whose header comes in a chunk of its own is lost. -/
theorem unmasked_frame_lost :
    makeFrameData [104] [] = some [129, 1, 104] ∧
      ¬ ({} : WSFrame).delivered [[129, 1], [104]] = [[104]] := by
  decide

end WSFrame

end MixServer.Script
