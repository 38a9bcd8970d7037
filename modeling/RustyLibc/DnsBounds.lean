import RustyLibc.DnsWire
import Mathlib.Data.List.Infix

/-!
# Hostile responses cannot break the reader

The counts, the label lengths, the compression octets and the data lengths of
a response are chosen by whoever sent it. One invariant carries both loops:
the cursor never passes `n`. The name walk may leave `buf[..n]`, but it stays
inside the buffer, and the check that follows it brings the cursor back under
`n` or ends the parse.
-/

namespace RustyLibc.Dns
open Outcome ByteOrder

theorem skipName_sat (buf : Slice) (pos : ℕ) :
    Sat (skipName buf pos) (fun p => pos < p ∧ p ≤ buf.len) (· = .EINVAL) := by
  refine Sat.loop (I := fun q => pos ≤ q) (fun q => buf.len - q) (fun q hq => ?_) le_rfl
    (by omega)
  by_cases hlen : q ≥ buf.len
  · simp [skipNameStep, hlen]
  · obtain ⟨b, hb, -⟩ := Slice.index_of_lt (ε := Errno) (Nat.not_le.mp hlen)
    rw [skipNameStep_of_getElem? hb]
    split_ifs <;> simp only [sat_ok, sat_err] <;> omega

theorem skipQuestion_sat (buf : Slice) (n pos : ℕ) :
    Sat (skipQuestion buf n pos) (fun p => pos < p ∧ p ≤ n) (· = .EINVAL) := by
  have hlen := buf.len_lt
  refine (skipName_sat buf pos).bind fun p hp => ?_
  rw [uadd_eq_ok (by omega), ok_bind]
  split_ifs with h
  · simp
  · simp only [pure_eq_ok, sat_ok]
    omega

theorem readU16_sat {buf : Slice} {pos : ℕ} (h : pos + 2 ≤ buf.len) :
    Sat (readU16 buf pos) (fun _ => True) (· = .EINVAL) := by
  obtain ⟨hi, lo, -, -, hread⟩ := readU16_eq_ok h
  simp [hread]

theorem parseHeader_sat {buf : Slice} {n : ℕ} (hn : n ≤ buf.len) :
    Sat (parseHeader buf n) (fun h => h.firstAnswer ≤ n) (fun _ => True) := by
  unfold parseHeader
  by_cases h12 : n < 12
  · simp [h12]
  · rw [if_neg h12]
    refine ((readU16_sat (by omega)).imp (fun _ h => h) fun _ _ => trivial).bind fun flags _ => ?_
    dsimp only
    split_ifs with hnx hrc
    · trivial
    · trivial
    · refine ((readU16_sat (by omega)).imp (fun _ h => h) fun _ _ => trivial).bind fun qd _ => ?_
      refine ((readU16_sat (by omega)).imp (fun _ h => h) fun _ _ => trivial).bind fun an _ => ?_
      have hloop : Sat (forN (skipQuestion buf n) qd.toNat 12) (· ≤ n) (fun _ => True) :=
        Sat.forN (fun p _ => (skipQuestion_sat buf n p).imp (fun _ h => h.2) fun _ _ => trivial) _
          (by omega)
      exact hloop.bind fun p hp => hp

theorem readRecord_sat {buf : Slice} {n : ℕ} (hn : n ≤ buf.len) (pos : ℕ) :
    Sat (readRecord buf n pos)
      (fun r => r.data ≤ r.stop ∧ r.stop = r.data + r.rdlength ∧ r.stop ≤ n) (· = .EINVAL) := by
  have hlen := buf.len_lt
  refine (skipName_sat buf pos).bind fun p hp => ?_
  rw [uadd_eq_ok (by omega), ok_bind]
  split_ifs with h
  · simp
  · refine (readU16_sat (by omega)).bind fun rtype _ => ?_
    rw [uadd_eq_ok (by omega), ok_bind]
    refine (readU16_sat (by omega)).bind fun rdlength _ => ?_
    have hrd := rdlength.toNat_lt
    rw [uadd_eq_ok (by omega), ok_bind]
    split_ifs with hstop
    · simp
    · exact ⟨Nat.le_add_right _ _, rfl, Nat.not_lt.mp hstop⟩

theorem take_drop_infix_take {bs : List UInt8} {a w n : ℕ} (h : a + w ≤ n) :
    (bs.drop a).take w <:+: bs.take n := by
  rw [Slice.run_eq_run_take bs h]
  exact (List.take_prefix _ _).isInfix.trans (List.drop_suffix _ _).isInfix

/-- The loop state of the answer parsers: the cursor is inside the received
bytes and every collected address is a run of them. -/
def Collected (w : ℕ) (buf : Slice) (n : ℕ) (st : ℕ × AddrList w) : Prop :=
  st.1 ≤ n ∧ ∀ a ∈ st.2.asSlice, a <:+: buf.bytes.take n ∧ a.length = w

theorem answerStep_sat {w : ℕ} {t : UInt16} {buf : Slice} {n : ℕ} (hn : n ≤ buf.len)
    {st : ℕ × AddrList w} (hst : Collected w buf n st) :
    Sat (answerStep w t buf n st) (Collected w buf n) (· = .EINVAL) := by
  have hlen := buf.len_lt
  refine (readRecord_sat hn st.1).bind fun r hr => ?_
  split_ifs with h
  · have hw : r.data + w ≤ buf.len := by omega
    rw [uadd_eq_ok (by omega), ok_bind, Slice.range_of_le (Nat.le_add_right _ _) hw, ok_bind,
      Nat.add_sub_cancel_left]
    have hbytes : ((buf.bytes.drop r.data).take w).length = w := by
      have : buf.bytes.length = buf.len := rfl
      simp only [List.length_take, List.length_drop]
      omega
    obtain ⟨a, ha, halist⟩ := copyFromSlice_eq_ok hbytes
    rw [ha, ok_bind]
    refine ⟨hr.2.2, fun x hx => ?_⟩
    rw [AddrList.asSlice_push, List.mem_append, List.mem_singleton, halist] at hx
    rcases hx with hx | rfl
    · exact hst.2 x hx
    · exact ⟨take_drop_infix_take (by omega), hbytes⟩
  · exact ⟨hr.2.2, hst.2⟩

theorem parseAnswers_sat {w : ℕ} {t : UInt16} {buf : Slice} {n : ℕ} (hn : n ≤ buf.len) :
    Sat (parseAnswers w t buf n)
      (fun out => 1 ≤ out.asSlice.length ∧ out.asSlice.length ≤ 8 ∧
        ∀ a ∈ out.asSlice, a <:+: buf.bytes.take n ∧ a.length = w) (fun _ => True) := by
  refine (parseHeader_sat hn).bind fun h hh => ?_
  have hinit : Collected w buf n (h.firstAnswer, .empty w) := ⟨hh, by simp⟩
  have hloop := Sat.forN (fun st hst => answerStep_sat (t := t) hn hst) h.ancount hinit
  refine (hloop.imp (fun _ h => h) fun _ _ => trivial).bind fun st hst => ?_
  split_ifs with hzero
  · trivial
  · simp only [pure_eq_ok, sat_ok, AddrList.length_asSlice]
    exact ⟨Nat.one_le_iff_ne_zero.mpr hzero, st.2.len_le, hst.2⟩

/-- On every buffer and every `n` within it both parsers end, without a panic,
in an error or in one to eight addresses that are runs of the first `n`
bytes. -/
theorem parseAnswers_safe (buf : Slice) (n : ℕ) (hn : n ≤ buf.len) :
    ((∃ e, parseAnswersA buf n = .err e) ∨
      ∃ out, parseAnswersA buf n = .ok out ∧ 1 ≤ out.asSlice.length ∧ out.asSlice.length ≤ 8 ∧
        ∀ a ∈ out.asSlice, a <:+: buf.bytes.take n ∧ a.length = 4) ∧
    ((∃ e, parseAnswersAaaa buf n = .err e) ∨
      ∃ out, parseAnswersAaaa buf n = .ok out ∧ 1 ≤ out.asSlice.length ∧
        out.asSlice.length ≤ 8 ∧
        ∀ a ∈ out.asSlice, a <:+: buf.bytes.take n ∧ a.length = 16) := by
  constructor
  · rcases (parseAnswers_sat (w := 4) (t := qtypeA) hn).ok_or_err with ⟨out, ho, h⟩ | ⟨e, he, -⟩
    · exact Or.inr ⟨out, ho, h⟩
    · exact Or.inl ⟨e, he⟩
  · rcases (parseAnswers_sat (w := 16) (t := qtypeAaaa) hn).ok_or_err with
      ⟨out, ho, h⟩ | ⟨e, he, -⟩
    · exact Or.inr ⟨out, ho, h⟩
    · exact Or.inl ⟨e, he⟩

theorem parseAnswers_safe_cannedResponse : 38 ≤ cannedResponse.len ∧
    ((∃ e, parseAnswersA cannedResponse 38 = .err e) ∨
      ∃ out, parseAnswersA cannedResponse 38 = .ok out ∧ 1 ≤ out.asSlice.length ∧
        out.asSlice.length ≤ 8 ∧
        ∀ a ∈ out.asSlice, a <:+: cannedResponse.bytes.take 38 ∧ a.length = 4) :=
  ⟨by decide, (parseAnswers_safe cannedResponse 38 (by decide)).1⟩

end RustyLibc.Dns
