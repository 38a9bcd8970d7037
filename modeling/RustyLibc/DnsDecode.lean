import RustyLibc.DnsMessage
import RustyLibc.DnsPrefix

/-!
# Decoding and truncation of well-formed responses

The two loops of the reader, run over the encoding of a message. Each ends at
the end of its section when the section ends by `n`, and in `EINVAL`
otherwise. A complete message therefore decodes to its address records, and a
message cut anywhere before the end of its answers is rejected: in the whole
buffer by the loops, in the cut buffer because only the first `n` bytes count.
-/

namespace RustyLibc.Dns
open Outcome ByteOrder

theorem Holds.skipQuestions {buf : Slice} {n : ℕ} {qs : List Question} {pos : ℕ}
    (h : Holds buf pos (qs.flatMap Question.encode)) (hpos : pos ≤ n) :
    forN (Dns.skipQuestion buf n) qs.length pos =
      if pos + (qs.flatMap Question.encode).length ≤ n then
        .ok (pos + (qs.flatMap Question.encode).length)
      else .err .EINVAL := by
  induction qs generalizing pos with
  | nil => simp [hpos]
  | cons q qs ih =>
    rw [List.flatMap_cons] at h
    rw [List.length_cons, forN_succ, h.left.skipQuestion, List.flatMap_cons, List.length_append]
    by_cases hq : pos + q.encode.length ≤ n
    · rw [if_pos hq, ok_bind, ih h.right hq, Nat.add_assoc]
    · rw [if_neg hq, err_bind, if_neg (by omega)]

def Record.address (r : Record) (t : UInt16) (w : ℕ) : List (List UInt8) :=
  if r.rtype = t ∧ r.rdata.length = w then [r.rdata] else []

theorem addresses_cons (r : Record) (rs : List Record) (t : UInt16) (w : ℕ) :
    ((r :: rs).filter fun r => r.rtype = t ∧ r.rdata.length = w).map Record.rdata =
      r.address t w ++ (rs.filter fun r => r.rtype = t ∧ r.rdata.length = w).map Record.rdata := by
  by_cases h : r.rtype = t ∧ r.rdata.length = w <;> simp [Record.address, h]

theorem Holds.answerStep {w : ℕ} {t : UInt16} {buf : Slice} {n pos : ℕ} {r : Record}
    (h : Holds buf pos r.encode) (hn : n ≤ buf.len) (hend : pos + r.encode.length ≤ n)
    (out : AddrList w) :
    ∃ out' : AddrList w, answerStep w t buf n (pos, out) = .ok (pos + r.encode.length, out') ∧
      out'.asSlice = (out.asSlice ++ r.address t w).take maxAddrs := by
  have hlen := buf.len_lt
  have hout : out.asSlice.length ≤ maxAddrs := out.length_asSlice ▸ out.len_le
  have hr : r.encode.length = r.name.encode.length + 10 + r.rdata.length := by
    simp [Record.encode]
    omega
  have hdata : Holds buf (pos + r.name.encode.length + 10) r.rdata := by
    have h4 := h.right.right.right.right
    simp only [List.length_append, length_u16ToBe, length_beBytes] at h4
    exact h4
  have hread : Dns.readRecord buf n pos =
      .ok ⟨r.rtype, r.rdata.length, pos + r.name.encode.length + 10, pos + r.encode.length⟩ := by
    rw [h.readRecord hn, if_pos hend]
  rw [Dns.answerStep, hread, ok_bind]
  dsimp only
  by_cases hmatch : r.rtype = t ∧ r.rdata.length = w
  · by_cases hroom : out.len < maxAddrs
    · obtain ⟨a, ha, halist⟩ := copyFromSlice_eq_ok hmatch.2
      have hrun : (buf.bytes.drop (pos + r.name.encode.length + 10)).take w = r.rdata := by
        rw [← hmatch.2]
        exact hdata.run
      refine ⟨out.push a hroom, ?_, ?_⟩
      · rw [dif_pos ⟨hmatch.1, hmatch.2, hroom⟩, uadd_eq_ok (by omega), ok_bind,
          Slice.range_of_le (Nat.le_add_right _ _) (by omega), ok_bind, Nat.add_sub_cancel_left,
          hrun, ha]
        rfl
      · have hshort : (out.asSlice ++ [r.rdata]).length ≤ maxAddrs := by
          rw [List.length_append, out.length_asSlice]
          exact hroom
        rw [AddrList.asSlice_push, halist, Record.address, if_pos hmatch,
          List.take_of_length_le hshort]
    · -- The list is full: the record is passed over, and `take` drops it too.
      have hfull : out.asSlice.length = maxAddrs := by
        rw [out.length_asSlice]
        have := out.len_le
        omega
      refine ⟨out, ?_, ?_⟩
      · rw [dif_neg fun hc => hroom hc.2.2]
        rfl
      · rw [List.take_append_of_le_length hfull.ge, List.take_of_length_le hout]
  · refine ⟨out, ?_, ?_⟩
    · rw [dif_neg fun hc => hmatch ⟨hc.1, hc.2.1⟩]
      rfl
    · rw [Record.address, if_neg hmatch, List.append_nil, List.take_of_length_le hout]

theorem Holds.answers {w : ℕ} {t : UInt16} {buf : Slice} {n : ℕ} (hn : n ≤ buf.len)
    {rs : List Record} {pos : ℕ} (h : Holds buf pos (rs.flatMap Record.encode)) (hpos : pos ≤ n)
    (out : AddrList w) :
    (pos + (rs.flatMap Record.encode).length ≤ n ∧
      ∃ out' : AddrList w,
        forN (Dns.answerStep w t buf n) rs.length (pos, out) =
          .ok (pos + (rs.flatMap Record.encode).length, out') ∧
        out'.asSlice = (out.asSlice ++
          (rs.filter fun r => r.rtype = t ∧ r.rdata.length = w).map Record.rdata).take maxAddrs) ∨
    (n < pos + (rs.flatMap Record.encode).length ∧
      forN (Dns.answerStep w t buf n) rs.length (pos, out) = .err .EINVAL) := by
  induction rs generalizing pos out with
  | nil =>
    have hout : out.asSlice.length ≤ maxAddrs := out.length_asSlice ▸ out.len_le
    exact Or.inl ⟨by simpa using hpos, out, rfl, by simp [List.take_of_length_le hout]⟩
  | cons r rs ih =>
    rw [List.flatMap_cons] at h
    rw [List.length_cons, List.flatMap_cons, List.length_append, forN_succ, ← Nat.add_assoc]
    by_cases hend : pos + r.encode.length ≤ n
    · obtain ⟨out₁, hstep, hslice⟩ := h.left.answerStep (t := t) hn hend out
      rw [hstep, ok_bind]
      rcases ih h.right hend out₁ with ⟨hle, out', hloop, hout'⟩ | ⟨hlt, hloop⟩
      · refine Or.inl ⟨hle, out', hloop, ?_⟩
        rw [hout', hslice, addresses_cons, take_take_append, List.append_assoc]
      · exact Or.inr ⟨hlt, hloop⟩
    · refine Or.inr ⟨by omega, ?_⟩
      have hread : Dns.readRecord buf n pos = .err .EINVAL := by
        rw [h.left.readRecord hn, if_neg hend]
      rw [Dns.answerStep, hread]
      rfl

theorem Message.length_header (m : Message) : m.header.length = 12 := by
  simp [Message.header]

theorem Holds.parseHeader {buf : Slice} {m : Message} (h : Holds buf 0 m.encode) (n : ℕ) :
    parseHeader buf n =
      if 12 + (m.questions.flatMap Question.encode).length ≤ n then
        .ok ⟨m.answers.length, 12 + (m.questions.flatMap Question.encode).length⟩
      else .err .EINVAL := by
  unfold Dns.parseHeader
  by_cases h12 : n < 12
  · rw [if_pos h12, if_neg (by omega)]
  · have hflags := h.left.right.left.readU16
    have hqd := h.left.right.right.left.readU16
    have han := h.left.right.right.right.left.readU16
    have hqs : Holds buf 12 (m.questions.flatMap Question.encode) := by
      have := h.right.left
      rwa [m.length_header] at this
    have hqdval : (UInt16.ofNat m.questions.length).toNat = m.questions.length := by
      simpa using Nat.mod_eq_of_lt m.questions_lt
    have hanval : (UInt16.ofNat m.answers.length).toNat = m.answers.length := by
      simpa using Nat.mod_eq_of_lt m.answers_lt
    simp only [length_u16ToBe, Nat.zero_add, Nat.reduceAdd] at hflags hqd han
    rw [if_neg h12, hflags, ok_bind]
    dsimp only
    rw [m.rcode_zero, if_neg (by decide), if_neg (by decide), hqd, ok_bind, han, ok_bind, hqdval,
      hanval, hqs.skipQuestions (by omega)]
    split_ifs <;> rfl

theorem Message.length_encode (m : Message) :
    m.encode.length = 12 + (m.questions.flatMap Question.encode).length +
      (m.answers.flatMap Record.encode).length := by
  rw [Message.encode, List.length_append, List.length_append, m.length_header, Nat.add_assoc]

theorem Holds.answerSection {buf : Slice} {m : Message} (h : Holds buf 0 m.encode) :
    Holds buf (12 + (m.questions.flatMap Question.encode).length)
      (m.answers.flatMap Record.encode) := by
  have := h.right.right
  rwa [m.length_header, Nat.zero_add] at this

theorem Holds.parseAnswers {w : ℕ} {t : UInt16} {buf : Slice} {m : Message}
    (h : Holds buf 0 m.encode) {n : ℕ} (hlo : m.encode.length ≤ n) (hhi : n ≤ buf.len) :
    (parseAnswers w t buf n).map AddrList.asSlice = m.resolved t w := by
  have hlen := m.length_encode
  rw [Dns.parseAnswers, h.parseHeader, if_pos (by omega), ok_bind]
  rcases h.answerSection.answers (t := t) hhi (by omega) (.empty w) with
    ⟨-, out, hloop, hout⟩ | ⟨hlt, -⟩
  · rw [AddrList.asSlice_empty, List.nil_append] at hout
    rw [hloop, ok_bind, Message.resolved]
    have hzero : out.len = 0 ↔ m.addresses t w = [] := by
      rw [← out.length_asSlice, hout, List.length_eq_zero_iff, List.take_eq_nil_iff]
      simp [maxAddrs, Message.addresses]
    by_cases hnil : m.addresses t w = []
    · rw [if_pos (hzero.mpr hnil), if_pos hnil, map_err]
    · rw [if_neg (hzero.not.mpr hnil), if_neg hnil, pure_eq_ok, map_ok, hout]
      rfl
  · omega

theorem Holds.parseAnswers_cut {w : ℕ} {t : UInt16} {buf : Slice} {m : Message}
    (h : Holds buf 0 m.encode) {n : ℕ} (hn : n < m.encode.length) (hhi : n ≤ buf.len) :
    Dns.parseAnswers w t buf n = .err .EINVAL := by
  have hlen := m.length_encode
  rw [Dns.parseAnswers, h.parseHeader]
  by_cases hq : 12 + (m.questions.flatMap Question.encode).length ≤ n
  · rw [if_pos hq, ok_bind]
    rcases h.answerSection.answers (t := t) hhi hq (.empty w) with ⟨hle, -⟩ | ⟨-, hloop⟩
    · omega
    · rw [hloop]
      rfl
  · rw [if_neg hq]
    rfl

/-- Both parsers return exactly the first eight addresses of a complete
message, whatever follows it in the buffer. -/
theorem parseAnswers_wellFormed (m : Message) (buf : Slice) (n : ℕ) (hbuf : m.encode <+: buf.bytes)
    (hlo : m.encode.length ≤ n) (hhi : n ≤ buf.len) :
    (parseAnswersA buf n).map AddrList.asSlice = m.resolved 1 4 ∧
      (parseAnswersAaaa buf n).map AddrList.asSlice = m.resolved 28 16 := by
  have h : Holds buf 0 m.encode := hbuf
  exact ⟨h.parseAnswers hlo hhi, h.parseAnswers hlo hhi⟩

def cannedMessage : Message where
  id := 0x1234
  flags := 0x8180
  rcode_zero := by decide
  questions := [⟨⟨[⟨[97], by decide, by decide⟩, ⟨[105, 111], by decide, by decide⟩], .root⟩, 1, 1⟩]
  answers := [⟨⟨[], .pointer 0xC0 0x0C (by decide)⟩, 1, 1, 300, [93, 184, 216, 34], by decide⟩]
  nscount := 0
  arcount := 0
  questions_lt := by decide
  answers_lt := by decide

theorem parseAnswers_wellFormed_cannedMessage :
    cannedMessage.encode <+: cannedResponse.bytes ∧ cannedMessage.encode.length ≤ 38 ∧
      (parseAnswersA cannedResponse 38).map AddrList.asSlice = cannedMessage.resolved 1 4 :=
  ⟨by decide, by decide,
    (parseAnswers_wellFormed cannedMessage cannedResponse 38 (by decide) (by decide)
      (by decide)).1⟩

theorem Holds.parseAnswers_upTo {w : ℕ} {t : UInt16} {buf cut : Slice} {m : Message}
    (h : Holds buf 0 m.encode) {n : ℕ} (hn : n < m.encode.length) (hcut : n ≤ cut.len)
    (hsame : cut.bytes.take n = m.encode.take n) :
    Dns.parseAnswers w t cut n = .err .EINVAL := by
  have hwhole : m.encode.length ≤ buf.len := h.length_le
  have hreceived : SameReceived n cut buf := by
    refine ⟨hcut, by omega, ?_⟩
    obtain ⟨rest, hrest⟩ := h
    rw [List.drop_zero] at hrest
    rw [hsame, ← hrest, List.take_append_of_le_length hn.le]
  exact (parseAnswers_agree hreceived).trans (h.parseAnswers_cut hn (by omega))

/-- A message cut before the end of its answers is rejected with `EINVAL`,
whatever stands behind the answers, and whether the buffer ends at the cut,
still holds the rest of the message or goes on with other bytes. -/
theorem parseAnswers_truncated (m : Message) (buf : Slice) (hbuf : m.encode <+: buf.bytes) (n : ℕ)
    (hn : n < m.encode.length) :
    (parseAnswersA buf n = .err .EINVAL ∧ parseAnswersAaaa buf n = .err .EINVAL) ∧
      (parseAnswersA (buf.upTo n) n = .err .EINVAL ∧
        parseAnswersAaaa (buf.upTo n) n = .err .EINVAL) ∧
      ∀ cut : Slice, n ≤ cut.len → cut.bytes.take n = m.encode.take n →
        parseAnswersA cut n = .err .EINVAL ∧ parseAnswersAaaa cut n = .err .EINVAL := by
  have hwhole : Holds buf 0 m.encode := hbuf
  have hlen : m.encode.length ≤ buf.len := hwhole.length_le
  have hcut : ∀ cut : Slice, n ≤ cut.len → cut.bytes.take n = m.encode.take n →
      parseAnswersA cut n = .err .EINVAL ∧ parseAnswersAaaa cut n = .err .EINVAL := by
    intro cut hn' hsame
    exact ⟨hwhole.parseAnswers_upTo hn hn' hsame, hwhole.parseAnswers_upTo hn hn' hsame⟩
  have hfront : buf.bytes.take n = m.encode.take n := by
    obtain ⟨rest, hrest⟩ := hbuf
    rw [← hrest, List.take_append_of_le_length hn.le]
  have hupTo : n ≤ (buf.upTo n).len := by
    simp only [Slice.len, Slice.upTo, List.length_take]
    simp only [Slice.len] at hlen
    omega
  have hagain : (buf.upTo n).bytes.take n = m.encode.take n := by
    rw [Slice.upTo, List.take_take, Nat.min_self, hfront]
  exact ⟨hcut buf (by omega) hfront, hcut (buf.upTo n) hupTo hagain, hcut⟩

def cannedTrailing : Slice := ⟨cannedMessage.encode ++ [0x00, 0x00, 0x29], by decide⟩

theorem parseAnswers_truncated_cannedMessage :
    cannedMessage.encode <+: cannedTrailing.bytes ∧ 20 < cannedMessage.encode.length ∧
      parseAnswersA cannedTrailing 20 = .err .EINVAL ∧
      parseAnswersA (cannedTrailing.upTo 20) 20 = .err .EINVAL := by
  have htruncated := parseAnswers_truncated cannedMessage cannedTrailing (by decide) 20 (by decide)
  exact ⟨by decide, by decide, htruncated.1.1, htruncated.2.1.1⟩

end RustyLibc.Dns
