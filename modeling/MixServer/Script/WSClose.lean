import MixServer.Script.WSStream

/-!
Close frames.

`on_read` calls `handle_close` as soon as it has read the first two bytes of a
close frame, and returns; but the object stays the current one, and when the
connection has unsent output it is given more chunks, with which it reads on in
its header. `nothing_after_close_iff` says when it then hands over the payload of
the close frame after all.
-/

namespace MixServer.Script

open Lib

/-- What is read back of four octets. -/
abbrev codes (key : Bytes) : Bytes := key.dropWhile (· = 0)

/-- The octets behind a masked close frame's first two are unmasked: groups of
four zero octets are passed over, and the next group is a key that is long enough
for what follows it. -/
def Echoed : Bytes → Prop
  | a :: b :: c :: d :: rest =>
      if codes [a, b, c, d] = [] then Echoed rest
      else rest ≠ [] ∧ ((codes [a, b, c, d]).length = 4 ∨ rest.length ≤ (codes [a, b, c, d]).length)
  | _ => False

theorem isSome_mapM {α β : Type} (f : α → Option β) (xs : List α) :
    (xs.mapM f).isSome ↔ ∀ x ∈ xs, (f x).isSome := by
  induction xs with
  | nil => simp
  | cons x xs ih =>
    rw [List.mapM_cons, List.forall_mem_cons, ← ih]
    cases f x with
    | none => simp
    | some y =>
        cases xs.mapM f with
        | none => simp
        | some ys => simp

/-- A key that is too short for the data raises `IndexError`. -/
theorem wsUnmask_isSome {key data : Bytes} (hne : key ≠ []) (hle : key.length ≤ 4) :
    (wsUnmask key data).isSome ↔ key.length = 4 ∨ data.length ≤ key.length := by
  have hpos := List.length_pos_iff.mpr hne
  rw [wsUnmask, if_neg hne, isSome_mapM]
  simp only [Option.isSome_map, isSome_getElem?]
  constructor
  · intro hall
    by_contra hshort
    rw [not_or] at hshort
    have hlt : key.length < data.length := by omega
    have hmem : (data[key.length], key.length) ∈ data.zipIdx := by
      rw [List.mem_zipIdx_iff_getElem?]
      exact List.getElem?_eq_getElem _
    have hread := hall _ hmem
    rw [Nat.mod_eq_of_lt (by omega)] at hread
    exact absurd hread (lt_irrefl _)
  · rintro hlong ⟨x, i⟩ hx
    have hi := List.snd_lt_of_mem_zipIdx hx
    dsimp only at hi ⊢
    rcases hlong with hfour | hshort
    · omega
    · exact (Nat.mod_le i 4).trans_lt (by omega)

namespace WSFrame

/-! ### The stages -/

/-- The call hands nothing over. -/
def Quiet (o : Outcome) : Prop := o = .returned ∨ o = .raised

/-- The object that waits for a key and has too few bytes in `buf`: what it is
given does not go there any more. -/
structure Keyless (f : WSFrame) : Prop where
  header : ∃ h, f.header = some h ∧ h.mask ≠ 0
  dataLen : f.dataLen.isSome = true
  maskCodes : f.maskCodes = []
  readingHead : f.readingHead = false
  few : f.buf.length < 4

/-- Nothing will be handed over any more. -/
def Silent (f : WSFrame) : Prop := (Counting f ∧ f.remainLen ≤ 0) ∨ Keyless f

theorem onReadN_keyless {f : WSFrame} (h : Keyless f) (depth : Nat) (s : Bytes) :
    onReadN (depth + 1) f s = (f, .raised) := by
  obtain ⟨hd, hheader, hmask⟩ := h.header
  obtain ⟨n, hdata⟩ := Option.isSome_iff_exists.mp h.dataLen
  have hunpack : structUnpack 4 f.buf = none := if_neg (not_le.mpr h.few)
  simp [onReadN, h.readingHead, hheader, hdata, hmask, h.maskCodes, hunpack]

theorem onRead_silent {f : WSFrame} (h : Silent f) {s : Bytes} (hs : s ≠ []) :
    Quiet (f.onRead s).2 ∧ Silent (f.onRead s).1 := by
  have hpos := List.length_pos_iff.mpr hs
  unfold onRead
  rcases h with ⟨hcounting, hrem⟩ | hkeyless
  · cases hhead : f.readingHead with
    | false =>
        rw [onReadN_counting hcounting hhead, readPayload_eq,
          if_neg (by rw [List.length_append]; omega)]
        refine ⟨.inl rfl, .inl ⟨⟨hcounting.header, hcounting.dataLen, hcounting.key⟩, ?_⟩⟩
        dsimp only
        omega
    | true =>
        rw [onReadN_counting_head hcounting hhead _ (by omega), readPayload_eq,
          if_neg (by simp only [List.length_append]; omega)]
        refine ⟨.inl rfl, .inl ⟨⟨hcounting.header, hcounting.dataLen, hcounting.key⟩, ?_⟩⟩
        dsimp only
        omega
  · rw [onReadN_keyless hkeyless]
    exact ⟨.inr rfl, .inr hkeyless⟩

/-- The object in the mask stage and behind it: the key that it has read, `buf`, and
the bytes that it counts as missing. -/
def masking (h : Header) (n : Nat) (key buf : Bytes) (rem : Int) : WSFrame where
  header := some h
  maskCodes := key
  buf := buf
  remainLen := rem
  dataLen := some n
  readingHead := false

variable {h : Header} {n : Nat}

theorem onReadN_masking (hmask : h.mask ≠ 0) (a b c d : UInt8) (rest : Bytes) (rem : Int)
    (depth : Nat) :
    onReadN (depth + 1) (masking h n [] (a :: b :: c :: d :: rest) rem) [] =
      if 0 < rest.length then
        onReadN depth (masking h n (codes [a, b, c, d]) rest (rem - 4)) []
      else
        (masking h n (codes [a, b, c, d]) rest (rem - 4), .returned) := by
  have hunpack : structUnpack 4 (a :: b :: c :: d :: rest) = some (ofBe [a, b, c, d]) :=
    if_pos (by simp)
  have hfour : ([a, b, c, d] : Bytes).length = 4 := rfl
  have hcodes := maskOctets_key hfour
  simp only [onReadN, masking, Bool.false_eq_true, if_false, false_and]
  rw [if_pos ⟨hmask, trivial⟩, hunpack]
  simp only [hcodes]
  rfl

/-- A call hands something over iff `C`, and is quiet for good if not. -/
def HandsOver (C : Prop) (r : WSFrame × Outcome) : Prop :=
  (C → ∃ data, r.2 = .handleFrame data) ∧ (¬ C → Quiet r.2 ∧ Silent r.1)

/-- Behind the mask stage: the payload is what is in `buf`. -/
theorem handsOver_payload {key rest : Bytes} (hkey : key ≠ []) (hle : key.length ≤ 4) {rem : Int}
    (hrem : rem ≤ rest.length) (depth : Nat) :
    HandsOver (rem = rest.length ∧ (key.length = 4 ∨ rest.length ≤ key.length))
      (onReadN (depth + 1) (masking h n key rest rem) []) := by
  have hcounting : Counting (masking h n key rest rem) := ⟨rfl, rfl, .inr hkey⟩
  have hunmask : (wsUnmask key rest).isSome ↔ key.length = 4 ∨ rest.length ≤ key.length :=
    wsUnmask_isSome hkey hle
  rw [onReadN_counting hcounting rfl, readPayload_eq]
  simp only [masking, List.append_nil, List.nil_append]
  constructor
  · rintro ⟨hall, hlong⟩
    obtain ⟨data, hdata⟩ := Option.isSome_iff_exists.mp (hunmask.mpr hlong)
    exact ⟨data, by rw [if_pos (by omega), hdata]⟩
  · intro hnot
    refine ⟨?_, .inl ⟨⟨rfl, rfl, .inr hkey⟩, by dsimp only; omega⟩⟩
    split
    · rename_i hall
      have hnone : wsUnmask key rest = none := by
        rw [← Option.not_isSome_iff_eq_none, hunmask]
        exact fun hlong => hnot ⟨by omega, hlong⟩
      rw [hnone]
      exact .inr rfl
    · exact .inl rfl

theorem handsOver_congr {C C' : Prop} {r : WSFrame × Outcome} (hC : C ↔ C') :
    HandsOver C r ↔ HandsOver C' r := by
  rw [HandsOver, HandsOver, hC]

/-- The mask stage, until it has read an octet of a key that is not zero. -/
theorem handsOver_masking (hmask : h.mask ≠ 0) (buf : Bytes) {rem : Int} (hrem : rem ≤ buf.length)
    {depth : Nat} (hdepth : buf.length < depth) :
    HandsOver (rem = buf.length ∧ Echoed buf) (onReadN depth (masking h n [] buf rem) []) := by
  obtain ⟨depth, rfl⟩ := Nat.exists_eq_add_of_le' (by omega : 1 ≤ depth)
  induction buf using Echoed.induct generalizing rem depth with
  | case1 a b c d rest hzero ih =>
      simp only [List.length_cons, Nat.cast_add, Nat.cast_one] at hrem hdepth
      rw [onReadN_masking hmask, hzero, Echoed, if_pos hzero]
      split
      · obtain ⟨depth, rfl⟩ := Nat.exists_eq_add_of_le' (by omega : 1 ≤ depth)
        have hless : rem - 4 ≤ rest.length := by omega
        refine (handsOver_congr ?_).mpr (ih hless depth (by omega))
        simp only [List.length_cons, Nat.cast_add, Nat.cast_one]
        exact and_congr_left fun _ => by omega
      · have hnil : rest = [] := List.length_eq_zero_iff.mp (by omega)
        subst hnil
        exact ⟨fun hC => hC.2.elim, fun _ => ⟨.inl rfl, .inr ⟨⟨h, rfl, hmask⟩, rfl, rfl, rfl, by
          exact Nat.zero_lt_succ 3⟩⟩⟩
  | case2 a b c d rest hne =>
      have hle : (codes [a, b, c, d]).length ≤ 4 :=
        (List.dropWhile_suffix _).length_le
      simp only [List.length_cons, Nat.cast_add, Nat.cast_one] at hrem hdepth
      rw [onReadN_masking hmask, Echoed, if_neg hne]
      split
      · rename_i hpos
        obtain ⟨depth, rfl⟩ := Nat.exists_eq_add_of_le' (by omega : 1 ≤ depth)
        have hless : rem - 4 ≤ rest.length := by omega
        refine (handsOver_congr ?_).mpr (handsOver_payload hne hle hless depth)
        have hrest : rest ≠ [] := List.length_pos_iff.mp hpos
        simp only [List.length_cons, Nat.cast_add, Nat.cast_one, ne_eq, hrest, not_false_eq_true,
          true_and]
        exact and_congr_left fun _ => by omega
      · have hnil : rest = [] := List.length_eq_zero_iff.mp (by omega)
        subst hnil
        refine ⟨fun hC => (hC.2.1 rfl).elim, fun _ => ⟨.inl rfl, .inl ⟨⟨rfl, rfl, .inr hne⟩, ?_⟩⟩⟩
        simp only [masking, List.length_nil, Nat.cast_zero] at hrem ⊢
        omega
  | case3 buf hfew =>
      have hshort : buf.length < 4 := by
        by_contra hlong
        match buf, hlong with
        | a :: b :: c :: d :: rest, _ => exact hfew a b c d rest rfl
        | [_, _, _], hlong => exact hlong (by simp)
        | [_, _], hlong => exact hlong (by simp)
        | [_], hlong => exact hlong (by simp)
        | [], hlong => exact hlong (by simp)
      have hkeyless : Keyless (masking h n [] buf rem) :=
        ⟨⟨h, rfl, hmask⟩, rfl, rfl, rfl, hshort⟩
      rw [onReadN_keyless hkeyless]
      refine ⟨fun hC => ?_, fun _ => ⟨.inr rfl, .inr hkeyless⟩⟩
      rw [Echoed] at hC
      · exact hC.2.elim
      · exact hfew

/-- How many bytes follow the first two in a control frame. -/
def bodyLength (h : Header) : Nat := h.len1 + if h.mask = 0 then 0 else 4

/-- A control frame: its opcode sets no mode, and its length is short. -/
structure Control (h : Header) : Prop where
  opcode : h.opcode = 0x8
  short : h.lenBytes = none

theorem Control.opened_eq (hc : Control h) (q : Bytes) :
    opened h q =
      { header := some h, buf := q, remainLen := bodyLength h, dataLen := some h.len1 } := by
  have hrem : ((h.len1 : Nat) : Int) + (if h.mask = 0 then 0 else 4) = bodyLength h := by
    rw [bodyLength]
    split
    · rfl
    · rfl
  have hmode : opcodeMode h none = none := by
    rw [opcodeMode, hc.opcode]
    rfl
  simp only [opened, setHeader, hc.short, Option.getD_none, hrem, hmode]
  rfl

/-- The mask stage is entered when the last byte of the frame is in `buf`. -/
theorem onReadN_closing (hmask : h.mask ≠ 0) {q s : Bytes} {rem : Int} (hfour : 4 ≤ rem)
    (hlong : rem ≤ (q ++ s).length) (depth : Nat) :
    onReadN (depth + 1) { header := some h, buf := q, remainLen := rem, dataLen := some n } s =
      onReadN (depth + 1) (masking h n [] (q ++ s) rem) [] := by
  have hnot : ¬ (((q ++ s).length : Int) < rem) := by omega
  obtain ⟨a, b, c, d, rest, hbuf⟩ : ∃ a b c d rest, q ++ s = a :: b :: c :: d :: rest := by
    match q ++ s, (by omega : 4 ≤ (q ++ s).length) with
    | a :: b :: c :: d :: rest, _ => exact ⟨a, b, c, d, rest, rfl⟩
  have hunpack : structUnpack 4 (a :: b :: c :: d :: rest) = some (ofBe [a, b, c, d]) :=
    if_pos (by simp)
  have hfour : ([a, b, c, d] : Bytes).length = 4 := rfl
  have hcodes := maskOctets_key hfour
  rw [hbuf] at hnot ⊢
  rw [onReadN_masking hmask]
  simp only [onReadN, if_true, hbuf]
  rw [if_neg (fun hc => hnot hc.2), if_pos ⟨hmask, trivial⟩, hunpack]
  simp only [hcodes]
  rfl

/-- A chunk that comes after the first two bytes of a close frame. -/
theorem onRead_closing (hc : Control h) (q : Bytes) {s : Bytes} (hs : s ≠ []) :
    ((q ++ s).length < bodyLength h → (opened h q).onRead s = (opened h (q ++ s), .returned)) ∧
    (bodyLength h ≤ (q ++ s).length →
      HandsOver (h.mask ≠ 0 ∧ (q ++ s).length = bodyLength h ∧ Echoed (q ++ s))
        ((opened h q).onRead s)) := by
  rw [hc.opened_eq, hc.opened_eq]
  unfold onRead
  dsimp only
  constructor
  · intro hshort
    have hless : ((q ++ s).length : Int) < bodyLength h := by exact_mod_cast hshort
    simp only [onReadN, if_true]
    rw [if_pos ⟨trivial, hless⟩]
  · intro hlong
    by_cases hmask : h.mask = 0
    · have hcounting : Counting
          { header := some h, buf := q, remainLen := bodyLength h, dataLen := some h.len1 } :=
        ⟨rfl, rfl, .inl (by rintro hd ⟨⟩; exact hmask)⟩
      have hpos := List.length_pos_iff.mpr hs
      rw [onReadN_counting_head hcounting rfl _ (by dsimp only; exact_mod_cast hlong),
        readPayload_eq, if_neg (by simp only [List.length_append] at hlong ⊢; omega)]
      refine ⟨fun hC => absurd hmask hC.1, fun _ => ⟨.inl rfl, .inl ⟨⟨rfl, rfl, ?_⟩, ?_⟩⟩⟩
      · exact .inl (by rintro hd ⟨⟩; exact hmask)
      · simp only [List.length_append] at hlong ⊢
        omega
    · have hbody : bodyLength h = h.len1 + 4 := by rw [bodyLength, if_neg hmask]
      have hfour : (4 : Int) ≤ bodyLength h := by omega
      have hlong' : (bodyLength h : Int) ≤ (q ++ s).length := by exact_mod_cast hlong
      have hstage := onReadN_closing (n := h.len1) hmask hfour hlong' (q.length + s.length)
      rw [hstage]
      refine (handsOver_congr ?_).mpr (handsOver_masking hmask (q ++ s) hlong' ?_)
      rotate_left
      · rw [List.length_append]
        omega
      rw [and_iff_right hmask]
      exact and_congr_left fun _ => by omega

end WSFrame

namespace WSHandle

open WSFrame

variable {h : WSHandle} {hd : Header} {chunks : List Bytes}

/-! ### The handle -/

/-- What the handle shows to others is the same. -/
def Same (h h' : WSHandle) : Prop := h'.calls = h.calls ∧ h'.sent = h.sent

theorem handleMessage_quiet {f : WSFrame} (hcur : h.curFrame.getD {} = f) {s : Bytes}
    (hquiet : Quiet (f.onRead s).2) :
    h.handleMessage s = { h with curFrame := some (f.onRead s).1 } := by
  rcases hquiet with hret | hraise
  · simp only [handleMessage, hcur, hret]
  · simp only [handleMessage, hcur, hraise]

/-- After the frame has become silent nothing is shown any more. -/
theorem handleMessages_silent {f : WSFrame} (hf : Silent f) (hcur : h.curFrame.getD {} = f)
    (hne : ∀ c ∈ chunks, c ≠ []) : Same h (chunks.foldl handleMessage h) := by
  induction chunks generalizing h f with
  | nil => exact ⟨rfl, rfl⟩
  | cons c cs ih =>
    obtain ⟨hquiet, hsilent⟩ := onRead_silent hf (hne c List.mem_cons_self)
    rw [List.foldl_cons, handleMessage_quiet hcur hquiet]
    exact ih (h := { h with curFrame := some (f.onRead c).1 }) hsilent rfl
      fun c' hc' => hne c' (List.mem_cons_of_mem c hc')

/-- The frame, of which `q` is in `buf`, ends where one of the chunks ends, and its
payload can be unmasked. -/
def EndsEchoed (hd : Header) (q : Bytes) (chunks : List Bytes) : Prop :=
  ∃ pre, pre ≠ [] ∧ pre <+: chunks ∧ (q ++ pre.flatten).length = bodyLength hd ∧
    Echoed (q ++ pre.flatten)

theorem endsEchoed_cons {q c : Bytes} {cs : List Bytes} :
    EndsEchoed hd q (c :: cs) ↔
      ((q ++ c).length = bodyLength hd ∧ Echoed (q ++ c)) ∨ EndsEchoed hd (q ++ c) cs := by
  constructor
  · rintro ⟨pre, hne, hpre, hlen, hecho⟩
    cases pre with
    | nil => exact absurd rfl hne
    | cons x pre =>
        rw [List.cons_prefix_cons] at hpre
        obtain ⟨rfl, hpre⟩ := hpre
        rw [List.flatten_cons, ← List.append_assoc] at hlen hecho
        by_cases hnil : pre = []
        · subst hnil
          rw [List.flatten_nil, List.append_nil] at hlen hecho
          exact .inl ⟨hlen, hecho⟩
        · exact .inr ⟨pre, hnil, hpre, hlen, hecho⟩
  · rintro (⟨hlen, hecho⟩ | ⟨pre, -, hpre, hlen, hecho⟩)
    · exact ⟨[c], by simp, by simp, by simpa using hlen, by simpa using hecho⟩
    · refine ⟨c :: pre, by simp, List.cons_prefix_cons.mpr ⟨rfl, hpre⟩, ?_, ?_⟩
      · rwa [List.flatten_cons, ← List.append_assoc]
      · rwa [List.flatten_cons, ← List.append_assoc]

/-- A frame that has ended, or been overrun, does not end with a later chunk. -/
theorem not_endsEchoed {q : Bytes} (hlong : bodyLength hd ≤ q.length)
    (hne : ∀ c ∈ chunks, c ≠ []) : ¬ EndsEchoed hd q chunks := by
  rintro ⟨pre, hnil, hpre, hlen, -⟩
  cases pre with
  | nil => exact hnil rfl
  | cons c pre =>
      have hpos := List.length_pos_iff.mpr (hne c (hpre.subset List.mem_cons_self))
      rw [List.flatten_cons, List.length_append, List.length_append] at hlen
      omega

theorem forall_prefix_cons {P : List Bytes → Prop} {c : Bytes} {cs : List Bytes} :
    (∀ pre, pre <+: c :: cs → P pre) ↔ P [] ∧ ∀ pre, pre <+: cs → P (c :: pre) := by
  constructor
  · intro hall
    exact ⟨hall [] List.nil_prefix, fun pre hpre =>
      hall (c :: pre) (List.cons_prefix_cons.mpr ⟨rfl, hpre⟩)⟩
  · rintro ⟨hnil, hcons⟩ pre hpre
    cases pre with
    | nil => exact hnil
    | cons x pre =>
        obtain ⟨rfl, hrest⟩ := List.cons_prefix_cons.mp hpre
        exact hcons pre hrest

/-- The chunks after the one with the first two bytes; `q` is in `buf`. -/
theorem same_closing_iff (hc : Control hd) {q : Bytes} (hcur : h.curFrame.getD {} = opened hd q)
    (hne : ∀ c ∈ chunks, c ≠ []) :
    (∀ pre, pre <+: chunks → Same h (pre.foldl handleMessage h)) ↔
      ¬ (hd.mask ≠ 0 ∧ EndsEchoed hd q chunks) := by
  induction chunks generalizing h q with
  | nil =>
    refine iff_of_true ?_ ?_
    · intro pre hpre
      rw [List.prefix_nil.mp hpre]
      exact ⟨rfl, rfl⟩
    · rintro ⟨-, pre, hnil, hpre, -⟩
      exact hnil (List.prefix_nil.mp hpre)
  | cons c cs ih =>
    have hcs : ∀ x ∈ cs, x ≠ [] := fun x hx => hne x (List.mem_cons_of_mem c hx)
    obtain ⟨hwait, hends⟩ := onRead_closing hc q (hne c List.mem_cons_self)
    rw [forall_prefix_cons, and_iff_right (show Same h ([].foldl handleMessage h) from ⟨rfl, rfl⟩),
      endsEchoed_cons]
    rcases Nat.lt_or_ge (q ++ c).length (bodyLength hd) with hshort | hlong
    · have hread := hwait hshort
      rw [← hcur] at hread
      have hstep : h.handleMessage c = { h with curFrame := some (opened hd (q ++ c)) } := by
        simp only [handleMessage, hread]
      have hrest := ih (h := h.handleMessage c) (q := q ++ c) (by rw [hstep]; rfl) hcs
      rw [hstep] at hrest
      simp only [List.foldl_cons, hstep, hshort.ne, false_and, false_or]
      exact hrest
    · by_cases hC : hd.mask ≠ 0 ∧ (q ++ c).length = bodyLength hd ∧ Echoed (q ++ c)
      · -- the payload is handed over, and an echo is sent
        obtain ⟨data, hdata⟩ := (hends hlong).1 hC
        refine iff_of_false ?_ (not_not.mpr ⟨hC.1, .inl hC.2⟩)
        intro hall
        have hfirst := (hall [] List.nil_prefix).1
        rw [← hcur] at hdata
        simp only [List.foldl_cons, List.foldl_nil, handleMessage, hdata, handleFrame] at hfirst
        exact absurd (List.append_right_eq_self.mp hfirst) (List.cons_ne_nil _ _)
      · obtain ⟨hquiet, hsilent⟩ := (hends hlong).2 hC
        rw [← hcur] at hquiet hsilent
        refine iff_of_true ?_ ?_
        · intro pre hpre
          rw [List.foldl_cons, handleMessage_quiet rfl hquiet]
          exact handleMessages_silent
            (h := { h with curFrame := some ((h.curFrame.getD {}).onRead c).1 }) hsilent rfl
            fun x hx => hcs x (hpre.subset hx)
        · rintro ⟨hmask, hend | hend⟩
          · exact hC ⟨hmask, hend⟩
          · exact not_endsEchoed hlong hcs hend

/-! ### The close frame -/

/-- `F` is a close frame: two bytes, the key if it is masked, and up to 125 octets
of payload. -/
structure CloseFrame (mark len : UInt8) (key payload F : Bytes) : Prop where
  bytes : F = mark :: len :: (key ++ payload)
  opcode : (Header.ofBytes mark len).opcode = 0x8
  len1 : (Header.ofBytes mark len).len1 = payload.length
  short : payload.length ≤ 125
  key_length : key.length = if (Header.ofBytes mark len).mask = 0 then 0 else 4

section CloseFrame

variable {mark len : UInt8} {key payload F more p : Bytes}

theorem CloseFrame.control (hF : CloseFrame mark len key payload F) :
    Control (Header.ofBytes mark len) := by
  refine ⟨hF.opcode, ?_⟩
  have hshort := hF.short
  rw [Header.lenBytes, hF.len1, if_neg (by omega), if_neg (by omega)]

theorem CloseFrame.length_body (hF : CloseFrame mark len key payload F) :
    (key ++ payload).length = bodyLength (Header.ofBytes mark len) := by
  rw [List.length_append, hF.key_length, bodyLength, hF.len1, Nat.add_comm]

theorem CloseFrame.mask_iff (hF : CloseFrame mark len key payload F) :
    (Header.ofBytes mark len).mask ≠ 0 ↔ key ≠ [] := by
  have hkey := hF.key_length
  rw [← List.length_pos_iff, hkey]
  split
  · rename_i hmask
    simp [hmask]
  · rename_i hmask
    simp [hmask]

/-- The bytes seen so far: `handle_close` has been called if there are two. -/
def CallsClose (h : WSHandle) (seen : Bytes) (h' : WSHandle) : Prop :=
  h'.calls = h.calls ++ (if 2 ≤ seen.length then [.handleClose] else []) ∧ h'.sent = h.sent

/-- The frame ends where the chunk `c` ends, and its first two bytes came in
earlier chunks; `p` has come before them all. -/
def EndsLater (F p : Bytes) (chunks : List Bytes) : Prop :=
  ∃ before c, before ++ [c] <+: chunks ∧ 2 ≤ (p ++ before.flatten).length ∧
    p ++ before.flatten ++ c = F

/-- A chunk within the first two bytes is not the one. -/
theorem endsLater_cons {c : Bytes} {cs : List Bytes} (hp : p.length < 2) :
    EndsLater F p (c :: cs) ↔ EndsLater F (p ++ c) cs := by
  constructor
  · rintro ⟨before, x, hpre, htwo, hF⟩
    cases before with
    | nil =>
        rw [List.flatten_nil, List.append_nil] at htwo
        omega
    | cons y before =>
        rw [List.cons_append, List.cons_prefix_cons] at hpre
        obtain ⟨rfl, hpre⟩ := hpre
        rw [List.flatten_cons, ← List.append_assoc] at htwo hF
        exact ⟨before, x, hpre, htwo, hF⟩
  · rintro ⟨before, x, hpre, htwo, hF⟩
    refine ⟨c :: before, x, List.cons_prefix_cons.mpr ⟨rfl, hpre⟩, ?_, ?_⟩
    · rwa [List.flatten_cons, ← List.append_assoc]
    · rwa [List.flatten_cons, ← List.append_assoc]

/-- From two bytes on, the end of the frame in `buf` is the end of the frame. -/
theorem endsEchoed_iff (hF : CloseFrame mark len key payload F) {q : Bytes}
    (hcut : q ++ chunks.flatten = key ++ payload ++ more) :
    EndsEchoed (Header.ofBytes mark len) q chunks ↔
      Echoed (key ++ payload) ∧ EndsLater F (mark :: len :: q) chunks := by
  have hbody := hF.length_body
  constructor
  · rintro ⟨pre, hnil, hpre, hlen, hecho⟩
    have hall : q ++ pre.flatten = key ++ payload := by
      obtain ⟨rest, rfl⟩ := hpre
      rw [List.flatten_append, ← List.append_assoc] at hcut
      exact (List.append_inj hcut (by rw [hlen, hbody])).1
    refine ⟨hall ▸ hecho, pre.dropLast, pre.getLast hnil, ?_, ?_, ?_⟩
    · rwa [List.dropLast_append_getLast hnil]
    · simp only [List.cons_append, List.length_cons]
      omega
    · have hlast : pre.dropLast.flatten ++ pre.getLast hnil = pre.flatten := by
        conv_rhs => rw [← List.dropLast_append_getLast hnil]
        simp
      rw [List.append_assoc, hlast, List.cons_append, List.cons_append, hall, hF.bytes]
  · rintro ⟨hecho, before, c, hpre, -, hends⟩
    have hall : q ++ (before ++ [c]).flatten = key ++ payload := by
      rw [hF.bytes, List.cons_append, List.cons_append, List.cons_append, List.cons_append,
        List.cons.injEq, List.cons.injEq] at hends
      simpa using hends.2.2
    exact ⟨before ++ [c], by simp, hpre, by rw [hall, hbody], by rwa [hall]⟩

theorem callsClose_iff (hF : CloseFrame mark len key payload F)
    (hcur : h.curFrame.getD {} = { buf := p }) (hp : p.length < 2) (hne : ∀ c ∈ chunks, c ≠ [])
    (hcut : p ++ chunks.flatten = F ++ more) :
    (∀ pre, pre <+: chunks → CallsClose h (p ++ pre.flatten) (pre.foldl handleMessage h)) ↔
      ¬ (key ≠ [] ∧ Echoed (key ++ payload) ∧ EndsLater F p chunks) := by
  induction chunks generalizing h p with
  | nil =>
    have hlen := congrArg List.length hcut
    rw [hF.bytes] at hlen
    simp only [List.flatten_nil, List.append_nil, List.cons_append, List.length_cons] at hlen
    omega
  | cons c cs ih =>
    have hcs : ∀ x ∈ cs, x ≠ [] := fun x hx => hne x (List.mem_cons_of_mem c hx)
    have hstart : CallsClose h (p ++ [].flatten) ([].foldl handleMessage h) := by
      rw [List.flatten_nil, List.append_nil]
      exact ⟨by rw [if_neg (by omega), List.append_nil]; rfl, rfl⟩
    rw [List.flatten_cons, ← List.append_assoc] at hcut
    rw [forall_prefix_cons, and_iff_right hstart, endsLater_cons hp]
    simp only [List.flatten_cons, ← List.append_assoc, List.foldl_cons]
    by_cases hfew : (p ++ c).length < 2
    · have hread : (h.curFrame.getD {}).onRead c = ({ buf := p ++ c }, .returned) := by
        rw [hcur]
        exact onReadN_few _ hfew
      have hstep : h.handleMessage c = { h with curFrame := some { buf := p ++ c } } := by
        simp only [handleMessage, hread]
      have hrest := ih (h := h.handleMessage c) (by rw [hstep]; rfl) hfew hcs hcut
      rw [hstep] at hrest ⊢
      exact hrest
    · have hpre : p ++ c <+: mark :: len :: (key ++ payload ++ more) := by
        rw [hF.bytes, List.cons_append, List.cons_append] at hcut
        exact hcut ▸ List.prefix_append _ _
      obtain ⟨q, hq, -⟩ := eq_cons_cons_of_prefix hfew hpre
      have hread : (h.curFrame.getD {}).onRead c =
          (opened (Header.ofBytes mark len) q, .handleClose) := by
        rw [hcur, onRead, onReadN_first _ hq, if_pos hF.opcode]
      have hstep : h.handleMessage c =
          { h with
            curFrame := some (opened (Header.ofBytes mark len) q)
            calls := h.calls ++ [.handleClose] } := by
        simp only [handleMessage, hread]
      have hafter : ∀ pre : List Bytes, CallsClose h (p ++ c ++ pre.flatten)
          (pre.foldl handleMessage (h.handleMessage c)) ↔
            Same (h.handleMessage c) (pre.foldl handleMessage (h.handleMessage c)) := by
        intro pre
        rw [CallsClose, if_pos (by rw [List.length_append]; omega), Same, hstep]
      rw [hq, hF.bytes, List.cons_append, List.cons_append, List.cons_append, List.cons_append,
        List.cons.injEq, List.cons.injEq] at hcut
      rw [hq] at hafter ⊢
      simp only [hafter]
      rw [same_closing_iff hF.control (by rw [hstep]; rfl) hcs, hF.mask_iff,
        endsEchoed_iff hF hcut.2.2]

end CloseFrame

/-- **Close frames.** A close frame and whatever comes after it arrive in any
non-empty chunks. `handle_close` is called with the second byte of the frame, and
then nothing is handed over and nothing sent, unless the frame is masked, its
payload can be unmasked, and it ends where a chunk ends that is not the one with
its second byte. -/
theorem nothing_after_close_iff {mark len : UInt8} {key payload F more : Bytes}
    (hcur : h.curFrame = none) (hF : CloseFrame mark len key payload F)
    (hne : ∀ c ∈ chunks, c ≠ []) (hcut : chunks.flatten = F ++ more) :
    (∀ pre, pre <+: chunks → CallsClose h pre.flatten (pre.foldl handleMessage h)) ↔
      ¬ (key ≠ [] ∧ Echoed (key ++ payload) ∧
        ∃ before c, before ++ [c] <+: chunks ∧ 2 ≤ before.flatten.length ∧
          before.flatten ++ c = F) := by
  have hstart : h.curFrame.getD {} = { buf := ([] : Bytes) } := by
    rw [hcur]
    rfl
  exact callsClose_iff (p := []) hF hstart Nat.zero_lt_two hne hcut

/-- The theorem at an unmasked close frame, with a chunk after it. -/
theorem nothing_after_close_iff_unmasked :
    (∀ pre : List Bytes, pre <+: [[136], [0], [104]] →
      CallsClose {} pre.flatten (pre.foldl handleMessage {})) ↔
      ¬ (([] : Bytes) ≠ [] ∧ Echoed ([] ++ []) ∧
        ∃ (before : List Bytes) (c : Bytes), before ++ [c] <+: [[136], [0], [104]] ∧
          2 ≤ before.flatten.length ∧ before.flatten ++ c = [136, 0]) := by
  have hF : CloseFrame 136 0 [] [] [136, 0] := ⟨rfl, by decide, by decide, by decide, by decide⟩
  have hne : ∀ c ∈ ([[136], [0], [104]] : List Bytes), c ≠ [] := by decide
  have hcut : ([[136], [0], [104]] : List Bytes).flatten = [136, 0] ++ [104] := rfl
  exact nothing_after_close_iff (h := {}) rfl hF hne hcut

/-- A masked close frame with the status 1000, whose key comes in a second chunk: the
status is echoed. -/
theorem close_payload_echoed :
    CloseFrame 136 130 [1, 2, 3, 4] [2, 234] [136, 130, 1, 2, 3, 4, 2, 234] ∧
      ([[136, 130], [1, 2, 3, 4, 2, 234]].foldl handleMessage {}).calls =
        [.handleClose, .handleFrame [3, 232]] ∧
      ¬ ∀ pre, pre <+: [[136, 130], [1, 2, 3, 4, 2, 234]] →
        CallsClose {} pre.flatten (pre.foldl handleMessage {}) := by
  refine ⟨⟨rfl, by decide, by decide, by decide, by decide⟩, by decide, ?_⟩
  intro hall
  have hcalls := (hall _ List.prefix_rfl).1
  revert hcalls
  decide

end WSHandle

end MixServer.Script
