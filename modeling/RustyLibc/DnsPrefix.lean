import RustyLibc.DnsBounds

/-!
# The parse depends only on the received bytes

`skip_name` and `read_u16` are handed the whole buffer and bound themselves by
its length, so two runs over buffers that agree on their first `n` bytes can
part ways. They part only past `n`: a walk that leaves the first `n` bytes ends
in `EINVAL` or in a position beyond `n` (`Overrun`), and the check that follows
each name turns both into the same `EINVAL`.
-/

namespace RustyLibc.Dns
open Outcome ByteOrder

structure SameReceived (n : ℕ) (b₁ b₂ : Slice) : Prop where
  left : n ≤ b₁.len
  right : n ≤ b₂.len
  take_eq : b₁.bytes.take n = b₂.bytes.take n

variable {n : ℕ} {b₁ b₂ : Slice}

theorem SameReceived.getElem? (h : SameReceived n b₁ b₂) {i : ℕ} (hi : i < n) :
    b₁.bytes[i]? = b₂.bytes[i]? := by
  rw [← List.getElem?_take_of_lt hi, h.take_eq, List.getElem?_take_of_lt hi]

theorem SameReceived.run (h : SameReceived n b₁ b₂) {a w : ℕ} (hw : a + w ≤ n) :
    (b₁.bytes.drop a).take w = (b₂.bytes.drop a).take w := by
  rw [Slice.run_eq_run_take _ hw, Slice.run_eq_run_take b₂.bytes hw, h.take_eq]

/-- A name walk that did not end within the first `n` bytes. -/
def Overrun (n : ℕ) (buf : Slice) (x : Outcome Errno ℕ) : Prop :=
  x = .err .EINVAL ∨ ∃ p, x = .ok p ∧ n < p ∧ p ≤ buf.len

theorem skipName_overrun {buf : Slice} {pos : ℕ} (h : n ≤ pos) :
    Overrun n buf (skipName buf pos) := by
  rcases (skipName_sat buf pos).ok_or_err with ⟨p, hp, hlt, hle⟩ | ⟨e, he, rfl⟩
  · exact Or.inr ⟨p, hp, by omega, hle⟩
  · exact Or.inl he

theorem Overrun.reject {α : Type} {buf : Slice} {x : Outcome Errno ℕ} (hx : Overrun n buf x)
    {c : ℕ} (hc : c ≤ 10) (k : ℕ → ℕ → Outcome Errno α) :
    (x >>= fun p => uadd p c >>= fun q => if q > n then .err .EINVAL else k p q) =
      .err .EINVAL := by
  have hlen := buf.len_lt
  rcases hx with rfl | ⟨p, rfl, hlt, hle⟩
  · rfl
  · rw [ok_bind, uadd_eq_ok (by omega), ok_bind, if_pos (by omega)]

theorem skipName_agree (h : SameReceived n b₁ b₂) (pos : ℕ) :
    skipName b₁ pos = skipName b₂ pos ∨
      (Overrun n b₁ (skipName b₁ pos) ∧ Overrun n b₂ (skipName b₂ pos)) := by
  -- Induction on the distance to `n`; only a label moves the cursor without ending the walk.
  induction hd : n - pos using Nat.strong_induction_on generalizing pos with
  | _ d ih =>
    by_cases hpos : n ≤ pos
    · exact Or.inr ⟨skipName_overrun hpos, skipName_overrun hpos⟩
    · have hl := h.left
      have hr := h.right
      obtain ⟨b, hb, -⟩ := Slice.index_of_lt (ε := Errno) (s := b₁) (i := pos) (by omega)
      have hb' : b₂.bytes[pos]? = some b := (h.getElem? (by omega)).symm.trans hb
      by_cases h0 : b = 0
      · subst h0
        exact Or.inl ((skipName_root hb).trans (skipName_root hb').symm)
      · by_cases hp : b &&& 0xC0 = 0xC0
        · rw [skipName_pointer hb hp, skipName_pointer hb' hp]
          by_cases hlast : pos + 1 < n
          · exact Or.inl (by rw [if_neg (by omega), if_neg (by omega)])
          · have hover : ∀ buf : Slice, Overrun n buf
                (if pos + 1 ≥ buf.len then .err .EINVAL else .ok (pos + 2)) := by
              intro buf
              split_ifs with hend
              · exact Or.inl rfl
              · exact Or.inr ⟨pos + 2, rfl, by omega, by omega⟩
            exact Or.inr ⟨hover b₁, hover b₂⟩
        · rw [skipName_label hb h0 hp, skipName_label hb' h0 hp]
          exact ih (n - (pos + (1 + b.toNat))) (by omega) _ rfl

theorem readU16_agree (h : SameReceived n b₁ b₂) {pos : ℕ} (hpos : pos + 2 ≤ n) :
    readU16 b₁ pos = readU16 b₂ pos := by
  obtain ⟨hi, lo, hhi, hlo, hread⟩ := readU16_eq_ok (hpos.trans h.left)
  rw [hread, readU16_of_getElem? ((h.getElem? (by omega)).symm.trans hhi)
    ((h.getElem? (by omega)).symm.trans hlo)]

theorem skipQuestion_agree (h : SameReceived n b₁ b₂) (pos : ℕ) :
    skipQuestion b₁ n pos = skipQuestion b₂ n pos := by
  unfold skipQuestion
  rcases skipName_agree h pos with heq | ⟨h₁, h₂⟩
  · rw [heq]
  · rw [h₁.reject (by omega) fun _ q => pure q, h₂.reject (by omega) fun _ q => pure q]

theorem readRecord_agree (h : SameReceived n b₁ b₂) (pos : ℕ) :
    readRecord b₁ n pos = readRecord b₂ n pos := by
  unfold readRecord
  rcases skipName_agree h pos with heq | ⟨h₁, h₂⟩
  · refine bind_congr heq fun p _ => bind_congr rfl fun data hdata => ?_
    split_ifs with hbig
    · rfl
    · have hdata' := eq_add_of_uadd hdata
      refine bind_congr (readU16_agree h (by omega)) fun rtype _ => bind_congr rfl fun field hf => ?_
      have hfield := eq_add_of_uadd hf
      exact bind_congr (readU16_agree h (by omega)) fun _ _ => rfl
  · rw [h₁.reject le_rfl, h₂.reject le_rfl]

theorem parseHeader_agree (h : SameReceived n b₁ b₂) : parseHeader b₁ n = parseHeader b₂ n := by
  unfold parseHeader
  split_ifs with h12
  · rfl
  · have hq : skipQuestion b₁ n = skipQuestion b₂ n := funext (skipQuestion_agree h)
    rw [readU16_agree h (by omega), readU16_agree h (by omega), readU16_agree h (by omega), hq]

theorem answerStep_agree {w : ℕ} {t : UInt16} (h : SameReceived n b₁ b₂)
    (st : ℕ × AddrList w) : answerStep w t b₁ n st = answerStep w t b₂ n st := by
  unfold answerStep
  refine bind_congr (readRecord_agree h st.1) fun r hr => ?_
  obtain ⟨-, hstop, hle⟩ := (readRecord_sat h.right st.1).of_eq_ok hr
  split_ifs with hmatch
  · refine bind_congr rfl fun stop hs => ?_
    have hstop' := eq_add_of_uadd hs
    have hl := h.left
    have hr := h.right
    rw [Slice.range_of_le (by omega) (by omega), Slice.range_of_le (by omega) (by omega),
      h.run (by omega)]
  · rfl

theorem parseAnswers_agree {w : ℕ} {t : UInt16} (h : SameReceived n b₁ b₂) :
    parseAnswers w t b₁ n = parseAnswers w t b₂ n := by
  have hstep : answerStep w t b₁ n = answerStep w t b₂ n := funext (answerStep_agree h)
  rw [parseAnswers, parseAnswers, parseHeader_agree h, hstep]

/-- Stale bytes after the first `n` never influence the answer: equal received
bytes give equal results, errors included. -/
theorem parseAnswers_received_only (n : ℕ) (b₁ b₂ : Slice) (hl : n ≤ b₁.len) (hr : n ≤ b₂.len)
    (heq : b₁.bytes.take n = b₂.bytes.take n) :
    parseAnswersA b₁ n = parseAnswersA b₂ n ∧ parseAnswersAaaa b₁ n = parseAnswersAaaa b₂ n :=
  ⟨parseAnswers_agree ⟨hl, hr, heq⟩, parseAnswers_agree ⟨hl, hr, heq⟩⟩

def cannedResponseStale : Slice := ⟨cannedResponse.bytes ++ [0xC0, 0xFF], by decide⟩

theorem parseAnswers_received_only_cannedResponse :
    38 ≤ cannedResponse.len ∧ 38 ≤ cannedResponseStale.len ∧
      cannedResponse.bytes.take 38 = cannedResponseStale.bytes.take 38 ∧
      parseAnswersA cannedResponse 38 = parseAnswersA cannedResponseStale 38 :=
  ⟨by decide, by decide, by decide,
    (parseAnswers_received_only 38 cannedResponse cannedResponseStale (by decide) (by decide)
      (by decide)).1⟩

end RustyLibc.Dns
