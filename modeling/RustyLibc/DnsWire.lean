import RustyLibc.Outcome
import RustyLibc.ByteOrder
import RustyLibc.Errno

/-!
# The response reader of the stub resolver (`dns.rs`)

`skipName`, `readU16`, `parseHeader` and the two answer parsers as the source
computes them. Every index, slice and `usize` addition is checked and panics
where the source would. `parseAnswersA` and `parseAnswersAaaa` are the same
text in the source up to the record type and the address width, so they are
two instances of `parseAnswers`.
-/

namespace RustyLibc.Dns
open Outcome ByteOrder

def qtypeA : UInt16 := 1
def qtypeAaaa : UInt16 := 28
def qclassIn : UInt16 := 1
def maxAddrs : ℕ := 8

/-- `AddrList4` and `AddrList6`: a fixed array of eight addresses of `w` bytes
and the number of them in use. -/
structure AddrList (w : ℕ) where
  addrs : Vector (Vector UInt8 w) maxAddrs
  len : ℕ
  len_le : len ≤ maxAddrs
  deriving DecidableEq

abbrev AddrList4 := AddrList 4
abbrev AddrList6 := AddrList 16

theorem take_take_append {α : Type} (m : ℕ) (x y : List α) :
    (x.take m ++ y).take m = (x ++ y).take m := by
  by_cases h : x.length ≤ m
  · rw [List.take_of_length_le h]
  · have hfull : (x.take m).length = m := by
      rw [List.length_take]
      omega
    rw [List.take_append_of_le_length hfull.ge, List.take_append_of_le_length (by omega),
      List.take_take, Nat.min_self]

namespace AddrList
variable {w : ℕ}

def empty (w : ℕ) : AddrList w := ⟨Vector.replicate _ (Vector.replicate _ 0), 0, Nat.zero_le _⟩

def asSlice (l : AddrList w) : List (List UInt8) := (l.addrs.toList.take l.len).map Vector.toList

def push (l : AddrList w) (a : Vector UInt8 w) (h : l.len < maxAddrs) : AddrList w :=
  ⟨l.addrs.set l.len a h, l.len + 1, h⟩

@[simp] theorem empty_len : (empty w).len = 0 := rfl
@[simp] theorem push_len (l : AddrList w) (a : Vector UInt8 w) (h : l.len < maxAddrs) :
    (l.push a h).len = l.len + 1 := rfl
@[simp] theorem asSlice_empty : (empty w).asSlice = [] := rfl

theorem length_asSlice (l : AddrList w) : l.asSlice.length = l.len := by
  simpa [asSlice] using l.len_le

theorem asSlice_push (l : AddrList w) (a : Vector UInt8 w) (h : l.len < maxAddrs) :
    (l.push a h).asSlice = l.asSlice ++ [a.toList] := by
  have hlen : l.len < (l.addrs.toList.set l.len a).length := by simpa using h
  have hset : (l.addrs.set l.len a h).toList = l.addrs.toList.set l.len a := by
    simp [Vector.toList_set]
  simp only [asSlice, push, hset]
  rw [List.take_succ_eq_append_getElem hlen, List.take_set_of_le le_rfl]
  simp

end AddrList

def copyFromSlice (w : ℕ) (bs : List UInt8) : Outcome Errno (Vector UInt8 w) :=
  if h : bs.length = w then .ok ⟨bs.toArray, by simpa using h⟩ else .panic

theorem copyFromSlice_eq_ok {w : ℕ} {bs : List UInt8} (h : bs.length = w) :
    ∃ a : Vector UInt8 w, copyFromSlice w bs = .ok a ∧ a.toList = bs :=
  ⟨⟨bs.toArray, by simpa using h⟩, by simp [copyFromSlice, h], by simp [Vector.toList]⟩

def skipNameStep (buf : Slice) (pos : ℕ) : Outcome Errno (Pass ℕ ℕ) :=
  if pos ≥ buf.len then .err .EINVAL
  else do
    let len ← buf.index pos
    if len = 0 then do
      let pos ← uadd pos 1
      pure (.done pos)
    else if len &&& 0xC0 = 0xC0 then do
      let next ← uadd pos 1
      if next ≥ buf.len then .err .EINVAL
      else do
        let pos ← uadd pos 2
        pure (.done pos)
    else do
      let step ← uadd 1 len.toNat
      let pos ← uadd pos step
      pure (.next pos)

/-- `skip_name`. Each pass moves forward inside the buffer, so the budget
`buf.len + 1` is never spent (`skipName_sat`). -/
def skipName (buf : Slice) (pos : ℕ) : Outcome Errno ℕ :=
  loop (skipNameStep buf) (buf.len + 1) pos

def readU16 (buf : Slice) (pos : ℕ) : Outcome Errno UInt16 := do
  let stop ← uadd pos 2
  if stop > buf.len then .err .EINVAL
  else do
    let hi ← buf.index pos
    let next ← uadd pos 1
    let lo ← buf.index next
    pure (u16FromBe hi lo)

structure ParsedHeader where
  ancount : ℕ
  firstAnswer : ℕ
  deriving DecidableEq, Repr

def skipQuestion (buf : Slice) (n pos : ℕ) : Outcome Errno ℕ := do
  let pos ← skipName buf pos
  let pos ← uadd pos 4
  if pos > n then .err .EINVAL else pure pos

def parseHeader (buf : Slice) (n : ℕ) : Outcome Errno ParsedHeader :=
  if n < 12 then .err .EINVAL
  else do
    let flags ← readU16 buf 2
    let rcode := flags &&& 0x000F
    if rcode = 3 then .err .ENOENT
    else if rcode ≠ 0 then .err .EINVAL
    else do
      let qdcount ← readU16 buf 4
      let ancount ← readU16 buf 6
      let pos ← forN (skipQuestion buf n) qdcount.toNat 12
      pure ⟨ancount.toNat, pos⟩

structure RecordAt where
  rtype : UInt16
  rdlength : ℕ
  data : ℕ
  stop : ℕ
  deriving DecidableEq, Repr

/-- The part of an answer-loop pass that does not depend on the address
family: skip the owner name, bound the fixed fields and the data by `n`. -/
def readRecord (buf : Slice) (n pos : ℕ) : Outcome Errno RecordAt := do
  let pos ← skipName buf pos
  let data ← uadd pos 10
  if data > n then .err .EINVAL
  else do
    let rtype ← readU16 buf pos
    let field ← uadd pos 8
    let rdlength ← readU16 buf field
    let stop ← uadd data rdlength.toNat
    if stop > n then .err .EINVAL
    else pure ⟨rtype, rdlength.toNat, data, stop⟩

def answerStep (w : ℕ) (qtype : UInt16) (buf : Slice) (n : ℕ) (st : ℕ × AddrList w) :
    Outcome Errno (ℕ × AddrList w) := do
  let r ← readRecord buf n st.1
  if h : r.rtype = qtype ∧ r.rdlength = w ∧ st.2.len < maxAddrs then do
    let stop ← uadd r.data w
    let bytes ← buf.range r.data stop
    let addr ← copyFromSlice w bytes
    pure (r.stop, st.2.push addr h.2.2)
  else pure (r.stop, st.2)

def parseAnswers (w : ℕ) (qtype : UInt16) (buf : Slice) (n : ℕ) : Outcome Errno (AddrList w) := do
  let header ← parseHeader buf n
  let st ← forN (answerStep w qtype buf n) header.ancount (header.firstAnswer, .empty w)
  if st.2.len = 0 then .err .ENOENT else pure st.2

def parseAnswersA (buf : Slice) (n : ℕ) : Outcome Errno AddrList4 :=
  parseAnswers 4 qtypeA buf n

def parseAnswersAaaa (buf : Slice) (n : ℕ) : Outcome Errno AddrList6 :=
  parseAnswers 16 qtypeAaaa buf n

/-- `CANNED_RESPONSE` of the source's tests: one question for `a.io` and one
compressed A record, 93.184.216.34. -/
def cannedResponse : Slice where
  bytes :=
    [0x12, 0x34, 0x81, 0x80, 0x00, 0x01, 0x00, 0x01, 0x00, 0x00, 0x00, 0x00,
      0x01, 97, 0x02, 105, 111, 0x00, 0x00, 0x01, 0x00, 0x01,
      0xC0, 0x0C, 0x00, 0x01, 0x00, 0x01, 0x00, 0x00, 0x01, 0x2C, 0x00, 0x04, 93, 184, 216, 34]
  fits := by decide

example : (parseAnswersA cannedResponse 38).map AddrList.asSlice = .ok [[93, 184, 216, 34]] := by
  decide

theorem lt_len_of_getElem? {buf : Slice} {pos : ℕ} {b : UInt8} (hb : buf.bytes[pos]? = some b) :
    pos < buf.len := by
  obtain ⟨h, -⟩ := List.getElem?_eq_some_iff.mp hb
  exact h

theorem skipNameStep_of_getElem? {buf : Slice} {pos : ℕ} {b : UInt8}
    (hb : buf.bytes[pos]? = some b) :
    skipNameStep buf pos =
      if b = 0 then .ok (.done (pos + 1))
      else if b &&& 0xC0 = 0xC0 then
        if pos + 1 ≥ buf.len then .err .EINVAL else .ok (.done (pos + 2))
      else .ok (.next (pos + (1 + b.toNat))) := by
  have hpos := lt_len_of_getElem? hb
  have hlen := buf.len_lt
  have hbyte := b.toNat_lt
  have h1 : (uadd pos 1 : Outcome Errno ℕ) = .ok (pos + 1) := uadd_eq_ok (by omega)
  have h2 : (uadd pos 2 : Outcome Errno ℕ) = .ok (pos + 2) := uadd_eq_ok (by omega)
  have h3 : (uadd 1 b.toNat : Outcome Errno ℕ) = .ok (1 + b.toNat) := uadd_eq_ok (by omega)
  have h4 : (uadd pos (1 + b.toNat) : Outcome Errno ℕ) = .ok (pos + (1 + b.toNat)) :=
    uadd_eq_ok (by omega)
  simp only [skipNameStep, if_neg (Nat.not_le.mpr hpos), Slice.index_of_getElem? hb, ok_bind,
    pure_eq_ok, h1, h2, h3, h4]

theorem skipNameStep_next {buf : Slice} {pos p : ℕ} (h : skipNameStep buf pos = .ok (.next p)) :
    pos < buf.len ∧ pos < p := by
  by_cases hpos : pos ≥ buf.len
  · simp [skipNameStep, hpos] at h
  · obtain ⟨b, hb, -⟩ := Slice.index_of_lt (ε := Errno) (Nat.not_le.mp hpos)
    rw [skipNameStep_of_getElem? hb] at h
    split_ifs at h <;> simp_all
    omega

theorem skipName_unfold (buf : Slice) (pos : ℕ) :
    skipName buf pos = skipNameStep buf pos >>= fun
      | .next p => skipName buf p
      | .done p => .ok p := by
  rw [skipName, loop_succ]
  refine bind_congr rfl fun r hr => ?_
  cases r with
  | next p =>
    have hlt := skipNameStep_next hr
    refine loop_budget (fun q => buf.len - q) (fun q t hq => ?_) (by omega) (by omega)
    have := skipNameStep_next hq
    omega
  | done p => rfl

theorem skipName_root {buf : Slice} {pos : ℕ} (hb : buf.bytes[pos]? = some 0) :
    skipName buf pos = .ok (pos + 1) := by
  rw [skipName_unfold, skipNameStep_of_getElem? hb]
  rfl

theorem skipName_pointer {buf : Slice} {pos : ℕ} {b : UInt8} (hb : buf.bytes[pos]? = some b)
    (hp : b &&& 0xC0 = 0xC0) :
    skipName buf pos = if pos + 1 ≥ buf.len then .err .EINVAL else .ok (pos + 2) := by
  have h0 : b ≠ 0 := by
    intro heq
    obtain rfl := heq
    exact absurd hp (by decide)
  rw [skipName_unfold, skipNameStep_of_getElem? hb, if_neg h0, if_pos hp]
  split_ifs <;> rfl

theorem skipName_label {buf : Slice} {pos : ℕ} {b : UInt8} (hb : buf.bytes[pos]? = some b)
    (h0 : b ≠ 0) (hp : b &&& 0xC0 ≠ 0xC0) :
    skipName buf pos = skipName buf (pos + (1 + b.toNat)) := by
  rw [skipName_unfold, skipNameStep_of_getElem? hb, if_neg h0, if_neg hp]
  rfl

theorem readU16_of_getElem? {buf : Slice} {pos : ℕ} {hi lo : UInt8}
    (hhi : buf.bytes[pos]? = some hi) (hlo : buf.bytes[pos + 1]? = some lo) :
    readU16 buf pos = .ok (u16FromBe hi lo) := by
  have hpos := lt_len_of_getElem? hlo
  have hlen := buf.len_lt
  have h1 : (uadd pos 1 : Outcome Errno ℕ) = .ok (pos + 1) := uadd_eq_ok (by omega)
  have h2 : (uadd pos 2 : Outcome Errno ℕ) = .ok (pos + 2) := uadd_eq_ok (by omega)
  have hle : ¬ pos + 2 > buf.len := by omega
  simp only [readU16, h1, h2, ok_bind, if_neg hle, Slice.index_of_getElem? hhi,
    Slice.index_of_getElem? hlo, pure_eq_ok]

theorem readU16_eq_ok {buf : Slice} {pos : ℕ} (h : pos + 2 ≤ buf.len) :
    ∃ hi lo, buf.bytes[pos]? = some hi ∧ buf.bytes[pos + 1]? = some lo ∧
      readU16 buf pos = .ok (u16FromBe hi lo) := by
  obtain ⟨hi, hhi, -⟩ := Slice.index_of_lt (ε := Errno) (s := buf) (i := pos) (by omega)
  obtain ⟨lo, hlo, -⟩ := Slice.index_of_lt (ε := Errno) (s := buf) (i := pos + 1) (by omega)
  exact ⟨hi, lo, hhi, hlo, readU16_of_getElem? hhi hlo⟩

end RustyLibc.Dns
