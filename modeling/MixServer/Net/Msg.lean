import MixServer.Net.EventLoop

/-!
Length-prefixed messages (`net/msg.cpp`) and the reading of them that
`MsgServer::handle_read` and `Client::on_read` share.

`frames` is what the format means: a stream is cut into length words and
payloads. `fill` is the code's step, which keeps a partly read message in a
`Msg`; `pend` is the part of the stream it stands for. One step takes one frame
off it (`fill_complete`), fails at a bad length word (`fill_bad`), or stops with
every byte kept (`fill_stops`).
-/

namespace MixServer.Net

open Lib

/-! ### The format -/

/-- The length word at the front of a stream. -/
theorem readInt_append {xs : Bytes} (h : 4 ≤ xs.length) (zs : Bytes) :
    readInt (xs ++ zs) = readInt xs := by
  rw [readInt, List.take_append_of_le_length h, readInt]

theorem readInt_leBytes {n : Nat} (h : n < 2 ^ 31) (zs : Bytes) :
    readInt (leBytes 4 n ++ zs) = n := by
  rw [readInt_append (by simp), readInt, List.take_of_length_le (by simp),
    ofLe_leBytes (h.trans (by norm_num)), int32_of_lt h]

/-- The bytes of a positive length word can be had back from its value. -/
theorem leBytes_readInt {xs : Bytes} (h : 4 ≤ xs.length) (hpos : 0 < readInt xs) :
    (readInt xs).toNat < 2 ^ 31 ∧ leBytes 4 (readInt xs).toNat = xs.take 4 := by
  have hlen : (xs.take 4).length = 4 := by simpa using h
  have hlt := ofLe_lt (xs.take 4)
  rw [hlen] at hlt
  obtain ⟨heq, hmax⟩ := int32_pos hlt hpos
  have hval : (readInt xs).toNat = ofLe (xs.take 4) := by
    rw [readInt, heq, Int.toNat_natCast]
  refine ⟨hval ▸ hmax, ?_⟩
  rw [hval]
  conv_rhs => rw [← leBytes_ofLe (xs.take 4), hlen]

/-- The frames of a byte stream: a length word (four bytes, least significant
first, positive as an `int`), then that many bytes. -/
def frames : Splitter UInt8 Bytes where
  next xs :=
    if 4 ≤ xs.length ∧ 0 < readInt xs ∧ 4 + (readInt xs).toNat ≤ xs.length then
      some ((xs.drop 4).take (readInt xs).toNat, xs.drop (4 + (readInt xs).toNat))
    else
      none
  shrinks h := by
    split at h
    · simp only [Option.some.injEq, Prod.mk.injEq] at h
      obtain ⟨-, rfl⟩ := h
      simp only [List.length_drop]
      omega
    · cases h
  stable {xs _ _} zs h := by
    split at h
    · rename_i hc
      obtain ⟨hlen, hpos, hle⟩ := hc
      simp only [Option.some.injEq, Prod.mk.injEq] at h
      obtain ⟨rfl, rfl⟩ := h
      rw [readInt_append hlen, if_pos ⟨by simp; omega, hpos, by simp; omega⟩,
        List.drop_append_of_le_length hlen, List.drop_append_of_le_length hle,
        List.take_append_of_le_length (by simp; omega)]
    · cases h

/-- A length word that announces nothing: zero or negative. -/
def BadWord (xs : Bytes) : Prop := 4 ≤ xs.length ∧ readInt xs ≤ 0

instance (xs : Bytes) : Decidable (BadWord xs) := inferInstanceAs (Decidable (_ ∧ _))

theorem BadWord.append {xs : Bytes} (h : BadWord xs) (zs : Bytes) : BadWord (xs ++ zs) :=
  ⟨by simp; have := h.1; omega, by rw [readInt_append h.1]; exact h.2⟩

theorem BadWord.next_eq_none {xs : Bytes} (h : BadWord xs) : frames.next xs = none :=
  if_neg fun hc => absurd hc.2.1 (not_lt.mpr h.2)

/-! ### `Msg` -/

/-- A `Msg`: the length announced and the bytes read so far. -/
structure Msg where
  len : Int := 0
  msgReading : Bool := false
  prawData : Bytes := []
  hasWriteSize : Int := 0
deriving DecidableEq, Repr

namespace Msg

/-- `Msg::clear`. -/
def clear (_ : Msg) : Msg := { len := 0, msgReading := false, prawData := [], hasWriteSize := 0 }

/-- `Msg::try_write`. -/
def tryWrite (m : Msg) (len : Int) : Except Abort Msg :=
  if 0 < len then
    .ok { m with len := len, hasWriteSize := 0, msgReading := true, prawData := [] }
  else
    .error .tryWrite

/-- `Msg::write(const char*, int)`. -/
def write (m : Msg) (p : Bytes) : Msg :=
  { m with prawData := m.prawData ++ p, hasWriteSize := m.hasWriteSize + p.length }

/-- `Msg::get_remain_len`. -/
def getRemainLen (m : Msg) : Int := m.len - m.hasWriteSize

end Msg

/-! ### One step of reading -/

/-- What `MsgServer::handle_read` and `Client::on_read` do up to the test
`remain_len==0` after a write: the message and the read buffer after it, and
whether the test was made and passed. -/
def fill (pmsg : Msg) (pbuf : Bytes) : Except Abort (Msg × Bytes × Bool) := do
  let (pmsg, pbuf) ←
    (if pmsg.len = 0 ∧ 4 ≤ pbuf.length then
      (pmsg.tryWrite (readInt pbuf)).map fun m => (m, pbuf.drop 4)
    else
      .ok (pmsg, pbuf) : Except Abort (Msg × Bytes))
  let remainLen := pmsg.getRemainLen
  if 0 < remainLen ∧ 0 < pbuf.length then
    let readSize := if remainLen < pbuf.length then remainLen.toNat else pbuf.length
    let pmsg := pmsg.write (pbuf.take readSize)
    return (pmsg, pbuf.drop readSize, pmsg.getRemainLen = 0)
  else
    return (pmsg, pbuf, false)

/-- A message of `len` bytes of which `praw` have been read. -/
def Msg.begun (len : Nat) (praw : Bytes) : Msg :=
  { len := len, msgReading := true, prawData := praw, hasWriteSize := praw.length }

/-- A message between two calls: cleared, or begun and not complete. -/
inductive Msg.Between : Msg → Prop
  | idle : Msg.Between {}
  | begun {len : Nat} {praw : Bytes} (h : praw.length < len) (hlt : len < 2 ^ 31) :
      Msg.Between (Msg.begun len praw)

/-- The part of the stream that a message and a read buffer hold. -/
def pend (pmsg : Msg) (pbuf : Bytes) : Bytes :=
  if pmsg.len = 0 then pbuf else leBytes 4 pmsg.len.toNat ++ pmsg.prawData ++ pbuf

/-- Nothing more can be done before further bytes arrive. -/
def Resting (pmsg : Msg) (pbuf : Bytes) : Prop :=
  pmsg.len = 0 ∧ pbuf.length < 4 ∨
    0 < pmsg.len ∧ pbuf = [] ∧ pmsg.hasWriteSize < pmsg.len

theorem pend_append (pmsg : Msg) (pbuf zs : Bytes) :
    pend pmsg (pbuf ++ zs) = pend pmsg pbuf ++ zs := by
  simp only [pend]
  split
  · rfl
  · simp only [List.append_assoc]

@[simp] theorem pend_idle (pbuf : Bytes) : pend {} pbuf = pbuf := rfl

theorem pend_begun {len : Nat} {praw : Bytes} (h : praw.length < len) (pbuf : Bytes) :
    pend (.begun len praw) pbuf = leBytes 4 len ++ praw ++ pbuf := by
  have : len ≠ 0 := by omega
  simp [pend, Msg.begun, this]

theorem fill_short {pbuf : Bytes} (h : pbuf.length < 4) :
    fill {} pbuf = .ok ({}, pbuf, false) := by
  simp [fill, Msg.getRemainLen, not_le.mpr h]
  rfl

theorem fill_badWord {pbuf : Bytes} (h : BadWord pbuf) : fill {} pbuf = .error .tryWrite := by
  simp [fill, Msg.tryWrite, h.1, not_lt.mpr h.2, Except.map]

/-- Reading the length word begins a message. -/
theorem fill_idle {pbuf : Bytes} (h : 4 ≤ pbuf.length) (hpos : 0 < readInt pbuf) :
    fill {} pbuf = fill (.begun (readInt pbuf).toNat []) (pbuf.drop 4) := by
  have hne : readInt pbuf ≠ 0 := by omega
  have hto : ((readInt pbuf).toNat : Int) = readInt pbuf := Int.toNat_of_nonneg hpos.le
  simp [fill, Msg.tryWrite, Msg.begun, Msg.getRemainLen, h, hpos, hne, hto, Except.map]

/-- The reading of the length word is skipped for a begun message. -/
theorem fill_begun {len : Nat} {praw pbuf : Bytes} (h : praw.length < len) :
    fill (.begun len praw) pbuf =
      if 0 < pbuf.length then
        let readSize := min (len - praw.length) pbuf.length
        let pmsg := (Msg.begun len praw).write (pbuf.take readSize)
        .ok (pmsg, pbuf.drop readSize, pmsg.getRemainLen = 0)
      else
        .ok (.begun len praw, pbuf, false) := by
  have hlen : (Msg.begun len praw).len ≠ 0 := by simp [Msg.begun]; omega
  have hremain : (Msg.begun len praw).getRemainLen = (len - praw.length : Nat) := by
    simp only [Msg.begun, Msg.getRemainLen]
    omega
  have hsize : (if ((len - praw.length : Nat) : Int) < pbuf.length then len - praw.length
      else pbuf.length) = min (len - praw.length) pbuf.length := by
    split <;> omega
  have hpos : (0 : Int) < (len - praw.length : Nat) := by omega
  simp only [fill, hlen, false_and, if_false, ok_bind, hremain, hpos, true_and, Int.toNat_natCast,
    hsize]
  rfl

/-- A begun message takes what it lacks from the buffer. -/
theorem fill_begun_complete {len : Nat} {praw pbuf : Bytes} (h : praw.length < len)
    (hle : len ≤ praw.length + pbuf.length) :
    ∃ pmsg, fill (.begun len praw) pbuf = .ok (pmsg, pbuf.drop (len - praw.length), true) ∧
      pmsg.prawData = praw ++ pbuf.take (len - praw.length) ∧ pmsg.len = len := by
  have hmin : min (len - praw.length) pbuf.length = len - praw.length := by omega
  refine ⟨(Msg.begun len praw).write (pbuf.take (len - praw.length)), ?_, rfl, rfl⟩
  rw [fill_begun h, if_pos (by omega)]
  simp only [hmin, Msg.write, Msg.begun, Msg.getRemainLen, List.length_take]
  congr 3
  exact decide_eq_true (by omega)

theorem fill_begun_short {len : Nat} {praw pbuf : Bytes}
    (hlt : praw.length + pbuf.length < len) :
    fill (.begun len praw) pbuf = .ok (.begun len (praw ++ pbuf), [], false) := by
  rw [fill_begun (by omega)]
  split
  · have hmin : min (len - praw.length) pbuf.length = pbuf.length := by omega
    simp only [hmin, List.take_length, List.drop_length, Msg.write, Msg.begun, Msg.getRemainLen,
      List.length_append]
    congr 3
    exact decide_eq_false (by omega)
  · have : pbuf = [] := List.length_eq_zero_iff.mp (by omega)
    simp [this]

/-! ### One frame a step -/

variable {pmsg : Msg} {pbuf : Bytes}

/-- A message between two calls cannot go on, or announces nothing, or reads on
as a begun message. -/
theorem Msg.Between.cases_fill (hm : pmsg.Between) (pbuf : Bytes) :
    (pmsg = {} ∧ pbuf.length < 4) ∨ (pmsg = {} ∧ BadWord pbuf) ∨
      ∃ len praw pbuf', praw.length < len ∧ len < 2 ^ 31 ∧ pbuf'.length ≤ pbuf.length ∧
        fill pmsg pbuf = fill (.begun len praw) pbuf' ∧
        pend pmsg pbuf = leBytes 4 len ++ (praw ++ pbuf') := by
  cases hm with
  | begun h hlt =>
      refine .inr (.inr ⟨_, _, pbuf, h, hlt, le_rfl, rfl, ?_⟩)
      rw [pend_begun h, List.append_assoc]
  | idle =>
      by_cases h4 : 4 ≤ pbuf.length
      · by_cases hpos : 0 < readInt pbuf
        · obtain ⟨hmax, hle⟩ := leBytes_readInt h4 hpos
          refine .inr (.inr ⟨_, [], pbuf.drop 4, ?_, hmax, by simp, fill_idle h4 hpos, ?_⟩)
          · simp only [List.length_nil]
            omega
          · rw [pend_idle, hle, List.nil_append, List.take_append_drop]
        · exact .inr (.inl ⟨rfl, h4, not_lt.mp hpos⟩)
      · exact .inl ⟨rfl, not_le.mp h4⟩

/-- The first frame of a stream that starts with the length word of `len`. -/
theorem frames_next_word {len : Nat} (h : 0 < len) (hlt : len < 2 ^ 31) (xs : Bytes) :
    frames.next (leBytes 4 len ++ xs) =
      if len ≤ xs.length then some (xs.take len, xs.drop len) else none := by
  have hdrop : (leBytes 4 len ++ xs).drop (4 + len) = xs.drop len := by
    simp [List.drop_append]
  have hint := readInt_leBytes hlt xs
  by_cases hle : len ≤ xs.length
  · simp only [frames, hint]
    rw [if_pos ⟨by simp, by omega, by simpa using hle⟩, if_pos hle, Int.toNat_natCast, hdrop]
    simp
  · rw [if_neg hle]
    refine if_neg fun hc => hle ?_
    simpa [hint] using hc.2.2

theorem frames_next_short {xs : Bytes} (h : xs.length < 4) : frames.next xs = none :=
  if_neg fun hc => absurd hc.1 (not_le.mpr h)

theorem frames_drain_nil : frames.drain [] = ([], []) :=
  frames.drain_of_none (frames_next_short (by simp))

theorem not_badWord_word {len : Nat} (h : 0 < len) (hlt : len < 2 ^ 31) (xs : Bytes) :
    ¬ BadWord (leBytes 4 len ++ xs) := by
  rintro ⟨-, hle⟩
  rw [readInt_leBytes hlt] at hle
  omega

/-- A complete frame is taken off the stream; its payload is in `praw_data`. -/
theorem fill_complete (hm : pmsg.Between) {p rest : Bytes}
    (h : frames.next (pend pmsg pbuf) = some (p, rest)) :
    ∃ pmsg', fill pmsg pbuf = .ok (pmsg', rest, true) ∧ pmsg'.prawData = p ∧
      0 < pmsg'.len ∧ rest.length < pbuf.length := by
  rcases hm.cases_fill pbuf with ⟨rfl, hlt⟩ | ⟨rfl, hbad⟩ |
    ⟨len, praw, pbuf', hpraw, hlen, hbuf, hfill, hpend⟩
  · rw [pend_idle, frames_next_short hlt] at h
    cases h
  · rw [pend_idle, hbad.next_eq_none] at h
    cases h
  · rw [hpend, frames_next_word (by omega) hlen] at h
    split at h
    · rename_i hle
      rw [List.length_append] at hle
      simp only [Option.some.injEq, Prod.mk.injEq, List.take_append, List.drop_append] at h
      obtain ⟨pmsg', heq, hdata, hlen'⟩ := fill_begun_complete hpraw hle
      rw [List.drop_of_length_le hpraw.le, List.nil_append] at h
      refine ⟨pmsg', ?_, ?_, by omega, ?_⟩
      · rw [hfill, heq, ← h.2]
      · rw [hdata, ← h.1, List.take_of_length_le hpraw.le]
      · rw [← h.2, List.length_drop]
        omega
    · cases h

/-- A length word that announces nothing fails the assertion of `try_write`. -/
theorem fill_bad (hm : pmsg.Between) (h : BadWord (pend pmsg pbuf)) :
    fill pmsg pbuf = .error .tryWrite := by
  rcases hm.cases_fill pbuf with ⟨rfl, hlt⟩ | ⟨rfl, hbad⟩ |
    ⟨len, praw, pbuf', hpraw, hlen, -, -, hpend⟩
  · exact absurd h.1 (not_le.mpr hlt)
  · exact fill_badWord hbad
  · rw [hpend] at h
    exact absurd h (not_badWord_word (by omega) hlen _)

/-- Otherwise the step stops, having kept every byte. -/
theorem fill_stops (hm : pmsg.Between) (h : frames.next (pend pmsg pbuf) = none)
    (hbad : ¬ BadWord (pend pmsg pbuf)) :
    ∃ pmsg' pbuf', fill pmsg pbuf = .ok (pmsg', pbuf', false) ∧ pmsg'.Between ∧
      Resting pmsg' pbuf' ∧ pend pmsg' pbuf' = pend pmsg pbuf := by
  rcases hm.cases_fill pbuf with ⟨rfl, hlt⟩ | ⟨rfl, hbad'⟩ |
    ⟨len, praw, pbuf', hpraw, hlen, -, hfill, hpend⟩
  · exact ⟨{}, pbuf, fill_short hlt, .idle, .inl ⟨rfl, hlt⟩, rfl⟩
  · exact absurd hbad' hbad
  · rw [hpend, frames_next_word (by omega) hlen] at h
    split at h
    · cases h
    · rename_i hle
      rw [List.length_append, not_le] at hle
      have hle' : (praw ++ pbuf').length < len := by simpa using hle
      refine ⟨_, [], hfill.trans (fill_begun_short hle), .begun hle' hlen, .inr ⟨?_, rfl, ?_⟩, ?_⟩
      · simp only [Msg.begun]
        omega
      · exact Int.ofNat_lt.mpr hle'
      · rw [hpend, pend_begun hle', List.append_nil]

/-! ### Streams of payloads -/

/-- The stream a peer sends for a list of payloads. -/
def encode (payloads : List Bytes) : Bytes :=
  (payloads.map fun p => leBytes 4 p.length ++ p).flatten

/-- The payloads that `n` bytes of the stream hold completely. -/
def completed : List Bytes → Nat → List Bytes
  | [], _ => []
  | p :: ps, n => if 4 + p.length ≤ n then p :: completed ps (n - (4 + p.length)) else []

/-- What has arrived of a stream of payloads has the frames it should. -/
theorem drain_encode {payloads : List Bytes}
    (hp : ∀ p ∈ payloads, 1 ≤ p.length ∧ p.length < 2 ^ 31) {s : Bytes}
    (hs : s <+: encode payloads) :
    (frames.drain s).1 = completed payloads s.length ∧ ¬ BadWord (frames.drain s).2 := by
  induction payloads generalizing s with
  | nil =>
      obtain rfl := List.prefix_nil.mp hs
      rw [frames_drain_nil]
      exact ⟨rfl, fun hb => by simpa using hb.1⟩
  | cons p ps ih =>
      obtain ⟨hpos, hlt⟩ := hp p (by simp)
      have henc : encode (p :: ps) = leBytes 4 p.length ++ (p ++ encode ps) := by
        simp [encode]
      rw [henc] at hs
      by_cases h4 : 4 ≤ s.length
      · -- the length word has arrived
        obtain ⟨xs, rfl⟩ : leBytes 4 p.length <+: s :=
          List.prefix_of_prefix_length_le (List.prefix_append _ _) hs (by simpa using h4)
        have hxs : xs <+: p ++ encode ps := (List.prefix_append_right_inj _).mp hs
        have hnext := frames_next_word hpos hlt xs
        by_cases hle : p.length ≤ xs.length
        · obtain ⟨ys, rfl⟩ : p <+: xs :=
            List.prefix_of_prefix_length_le (List.prefix_append _ _) hxs hle
          have hys : ys <+: encode ps := (List.prefix_append_right_inj _).mp hxs
          obtain ⟨hih, hbad⟩ := ih (fun q hq => hp q (by simp [hq])) hys
          rw [if_pos hle, List.take_left, List.drop_left] at hnext
          rw [frames.drain_of_some hnext]
          refine ⟨?_, hbad⟩
          have hsub : 4 + (p.length + ys.length) - (4 + p.length) = ys.length := by omega
          simp [completed, hih, hsub]
        · rw [if_neg hle] at hnext
          rw [frames.drain_of_none hnext]
          refine ⟨?_, not_badWord_word hpos hlt xs⟩
          rw [completed, if_neg (by simp; omega)]
      · rw [frames.drain_of_none (frames_next_short (not_le.mp h4))]
        refine ⟨?_, fun hb => h4 hb.1⟩
        rw [completed, if_neg (by omega)]

end MixServer.Net
