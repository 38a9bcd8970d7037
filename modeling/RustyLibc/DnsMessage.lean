import RustyLibc.DnsBounds

/-!
# Well-formed responses and what the reader makes of them

A `Message` is the abstract content of a response: its fields carry the bounds
of the wire format, so that every value has an encoding and no ill-formed
message can be written down. The reader is compared with the encoding section
by section. For a question or a record the comparison says both what happens
when the section ends by `n` and what happens when it does not, so that
decoding and truncation are read off the same two loop lemmas.
-/

namespace RustyLibc.Dns
open Outcome ByteOrder

structure Label where
  bytes : List UInt8
  length_pos : 1 ≤ bytes.length
  length_le : bytes.length ≤ 63

def Label.encode (l : Label) : List UInt8 := UInt8.ofNat l.bytes.length :: l.bytes

inductive NameEnd where
  | root
  | pointer (hi lo : UInt8) (top : hi &&& 0xC0 = 0xC0)

def NameEnd.encode : NameEnd → List UInt8
  | .root => [0]
  | .pointer hi lo _ => [hi, lo]

structure Name where
  labels : List Label
  ending : NameEnd

def Name.encode (m : Name) : List UInt8 := m.labels.flatMap Label.encode ++ m.ending.encode

theorem Name.encode_cons (l : Label) (labels : List Label) (ending : NameEnd) :
    Name.encode ⟨l :: labels, ending⟩ = l.encode ++ Name.encode ⟨labels, ending⟩ := by
  simp [Name.encode]

structure Question where
  name : Name
  qtype : UInt16
  qclass : UInt16

def Question.encode (q : Question) : List UInt8 :=
  q.name.encode ++ (u16ToBe q.qtype ++ u16ToBe q.qclass)

structure Record where
  name : Name
  rtype : UInt16
  rclass : UInt16
  ttl : UInt32
  rdata : List UInt8
  rdata_lt : rdata.length < 2 ^ 16

def Record.encode (r : Record) : List UInt8 :=
  r.name.encode ++ (u16ToBe r.rtype ++ (u16ToBe r.rclass ++ beBytes 4 r.ttl.toNat ++
    (u16ToBe (UInt16.ofNat r.rdata.length) ++ r.rdata)))

/-- A response with rcode 0. The counts of the question and answer sections
are the lengths of the lists; the other two sections are not read. -/
structure Message where
  id : UInt16
  flags : UInt16
  rcode_zero : flags &&& 0x000F = 0
  questions : List Question
  answers : List Record
  nscount : UInt16
  arcount : UInt16
  questions_lt : questions.length < 2 ^ 16
  answers_lt : answers.length < 2 ^ 16

def Message.header (m : Message) : List UInt8 :=
  u16ToBe m.id ++ (u16ToBe m.flags ++ (u16ToBe (UInt16.ofNat m.questions.length) ++
    (u16ToBe (UInt16.ofNat m.answers.length) ++ (u16ToBe m.nscount ++ u16ToBe m.arcount))))

def Message.encode (m : Message) : List UInt8 :=
  m.header ++ (m.questions.flatMap Question.encode ++ m.answers.flatMap Record.encode)

def Message.addresses (m : Message) (t : UInt16) (w : ℕ) : List (List UInt8) :=
  (m.answers.filter fun r => r.rtype = t ∧ r.rdata.length = w).map Record.rdata

/-- What resolving `m` for type `t` and width `w` should give. -/
def Message.resolved (m : Message) (t : UInt16) (w : ℕ) : Outcome Errno (List (List UInt8)) :=
  if m.addresses t w = [] then .err .ENOENT else .ok ((m.addresses t w).take maxAddrs)

def Holds (buf : Slice) (pos : ℕ) (bs : List UInt8) : Prop := bs <+: buf.bytes.drop pos

theorem Holds.length_le {buf : Slice} {bs : List UInt8} (h : Holds buf 0 bs) :
    bs.length ≤ buf.len := by
  simpa [Slice.len] using List.IsPrefix.length_le h

theorem Holds.left {buf : Slice} {pos : ℕ} {a b : List UInt8} (h : Holds buf pos (a ++ b)) :
    Holds buf pos a :=
  (List.prefix_append a b).trans h

theorem Holds.right {buf : Slice} {pos : ℕ} {a b : List UInt8} (h : Holds buf pos (a ++ b)) :
    Holds buf (pos + a.length) b := by
  obtain ⟨rest, hrest⟩ := h
  refine ⟨rest, ?_⟩
  rw [← List.drop_drop, ← hrest, List.append_assoc, List.drop_left]

theorem Holds.head {buf : Slice} {pos : ℕ} {b : UInt8} {bs : List UInt8}
    (h : Holds buf pos (b :: bs)) : buf.bytes[pos]? = some b := by
  obtain ⟨rest, hrest⟩ := h
  have h0 : (buf.bytes.drop pos)[0]? = some b := by rw [← hrest]; rfl
  simpa using h0

theorem Holds.tail {buf : Slice} {pos : ℕ} {b : UInt8} {bs : List UInt8}
    (h : Holds buf pos (b :: bs)) : Holds buf (pos + 1) bs :=
  Holds.right (a := [b]) h

theorem Holds.readU16 {buf : Slice} {pos : ℕ} {x : UInt16} (h : Holds buf pos (u16ToBe x)) :
    readU16 buf pos = .ok x := by
  obtain ⟨hi, lo, hx, hval⟩ := u16ToBe_eq x
  rw [hx] at h
  rw [readU16_of_getElem? h.head h.tail.head, hval]

theorem Holds.run {buf : Slice} {pos : ℕ} {bs : List UInt8} (h : Holds buf pos bs) :
    (buf.bytes.drop pos).take bs.length = bs :=
  (List.prefix_iff_eq_take.mp h).symm

theorem label_octet (l : Label) :
    UInt8.ofNat l.bytes.length ≠ 0 ∧ UInt8.ofNat l.bytes.length &&& 0xC0 ≠ 0xC0 ∧
      (UInt8.ofNat l.bytes.length).toNat = l.bytes.length := by
  have hall : ∀ k : Fin 64, 1 ≤ k.val → UInt8.ofNat k.val ≠ 0 ∧
      UInt8.ofNat k.val &&& 0xC0 ≠ 0xC0 ∧ (UInt8.ofNat k.val).toNat = k.val := by decide
  exact hall ⟨l.bytes.length, Nat.lt_succ_of_le l.length_le⟩ l.length_pos

theorem Holds.skipName {buf : Slice} {pos : ℕ} {m : Name} (h : Holds buf pos m.encode) :
    skipName buf pos = .ok (pos + m.encode.length) := by
  obtain ⟨labels, ending⟩ := m
  induction labels generalizing pos with
  | nil =>
    cases ending with
    | root => exact skipName_root h.head
    | pointer hi lo top =>
      have hlo := lt_len_of_getElem? h.tail.head
      rw [skipName_pointer h.head top, if_neg (by omega)]
      rfl
  | cons l labels ih =>
    obtain ⟨h0, htop, hval⟩ := label_octet l
    have hlen : l.encode.length = 1 + l.bytes.length := by simp [Label.encode, Nat.add_comm]
    rw [Name.encode_cons] at h ⊢
    have hrest := ih h.right
    rw [hlen] at hrest
    rw [skipName_label h.left.head h0 htop, hval, hrest, List.length_append, hlen, Nat.add_assoc]

theorem Holds.skipQuestion {buf : Slice} {pos : ℕ} {q : Question} (h : Holds buf pos q.encode)
    (n : ℕ) : skipQuestion buf n pos =
      if pos + q.encode.length ≤ n then .ok (pos + q.encode.length) else .err .EINVAL := by
  have hp := (skipName_sat buf pos).of_eq_ok h.left.skipName
  have hlen := buf.len_lt
  have hq : q.encode.length = q.name.encode.length + 4 := by simp [Question.encode]
  rw [Dns.skipQuestion, h.left.skipName, ok_bind, uadd_eq_ok (by omega), ok_bind, hq]
  by_cases hle : pos + q.name.encode.length + 4 ≤ n
  · rw [if_neg (by omega), if_pos (by omega), pure_eq_ok, Nat.add_assoc]
  · rw [if_pos (by omega), if_neg (by omega)]

theorem Holds.readRecord {buf : Slice} {pos : ℕ} {r : Record} (h : Holds buf pos r.encode)
    {n : ℕ} (hn : n ≤ buf.len) : readRecord buf n pos =
      if pos + r.encode.length ≤ n then
        .ok ⟨r.rtype, r.rdata.length, pos + r.name.encode.length + 10, pos + r.encode.length⟩
      else .err .EINVAL := by
  have hp := (skipName_sat buf pos).of_eq_ok h.left.skipName
  have hlen := buf.len_lt
  have hr : r.encode.length = r.name.encode.length + 10 + r.rdata.length := by
    simp [Record.encode]
    omega
  have htype : Dns.readU16 buf (pos + r.name.encode.length) = .ok r.rtype := h.right.left.readU16
  have hfield : Holds buf (pos + r.name.encode.length + 8)
      (u16ToBe (UInt16.ofNat r.rdata.length) ++ r.rdata) := by
    have h3 := h.right.right.right
    simp only [List.length_append, length_u16ToBe, length_beBytes] at h3
    exact h3
  have hval : (UInt16.ofNat r.rdata.length).toNat = r.rdata.length := by
    simpa using Nat.mod_eq_of_lt r.rdata_lt
  have hrd := r.rdata_lt
  rw [Dns.readRecord, h.left.skipName, ok_bind, uadd_eq_ok (by omega), ok_bind]
  by_cases hdata : pos + r.name.encode.length + 10 > n
  · rw [if_pos hdata, if_neg (by omega)]
  · rw [if_neg hdata, htype, ok_bind, uadd_eq_ok (by omega), ok_bind, hfield.left.readU16, ok_bind,
      hval, uadd_eq_ok (by omega), ok_bind, hr]
    by_cases hstop : pos + r.name.encode.length + 10 + r.rdata.length > n
    · rw [if_pos hstop, if_neg (by omega)]
    · rw [if_neg hstop, if_pos (by omega), pure_eq_ok]
      congr 2
      omega

end RustyLibc.Dns
