import RustyLibc.ByteOrder
import RustyLibc.RecordStream

/-!
# Inotify records (`inotify.rs`, `InotifyEvents`)

The iterator shortens its own buffer: a 16-byte header whose last field is the
length of the name bytes, then that many bytes. It is the framing whose record
length is sixteen plus that field, so the results on record streams apply.
-/

namespace RustyLibc.Inotify
open Outcome ByteOrder RecordStream

structure InotifyEvent where
  wd : Int32
  mask : UInt32
  cookie : UInt32
  nameBytes : List UInt8
  deriving DecidableEq

/-- `CStr::from_bytes_until_nul`, as the bytes before the NUL. -/
def fromBytesUntilNul (bs : List UInt8) : Option (List UInt8) :=
  if 0 ∈ bs then some (bs.takeWhile (· ≠ 0)) else none

def InotifyEvent.name (ev : InotifyEvent) : Option (List UInt8) :=
  if ev.nameBytes.isEmpty then none else fromBytesUntilNul ev.nameBytes

structure InotifyEvents where
  buf : Slice

def inotifyEvents (buf : Slice) : InotifyEvents := ⟨buf⟩

def header : ℕ := 16

def InotifyEvents.next (e : Endian) (it : InotifyEvents) :
    Outcome Empty (Option (InotifyEvent × InotifyEvents)) :=
  if it.buf.bytes.isEmpty then pure none
  else do
    let wd ← it.buf.range 0 4
    let mask ← it.buf.range 4 8
    let cookie ← it.buf.range 8 12
    let lenBytes ← it.buf.range 12 16
    let len := neVal e lenBytes
    let stop ← uadd header len
    let name ← it.buf.range header stop
    let rest ← it.buf.rangeFrom stop
    pure (some (⟨.ofBitVec (BitVec.ofNat 32 (neVal e wd)), UInt32.ofNat (neVal e mask),
      UInt32.ofNat (neVal e cookie), name⟩, ⟨rest⟩))

def word (e : Endian) (r : List UInt8) (off : ℕ) : ℕ := neVal e ((r.drop off).take 4)

def eventOf (e : Endian) (r : List UInt8) : InotifyEvent where
  wd := .ofBitVec (BitVec.ofNat 32 (word e r 0))
  mask := UInt32.ofNat (word e r 4)
  cookie := UInt32.ofNat (word e r 8)
  nameBytes := r.drop 16

theorem word_append (e : Endian) {r : List UInt8} {off : ℕ} (h : off + 4 ≤ r.length)
    (rest : List UInt8) : word e (r ++ rest) off = word e r off := by
  have hdrop : 4 ≤ (r.drop off).length := by
    rw [List.length_drop]
    omega
  rw [word, word, List.drop_append_of_le_length (by omega), List.take_append_of_le_length hdrop]

theorem word_take (e : Endian) {bs : List UInt8} {off k : ℕ} (h : off + 4 ≤ k) :
    word e (bs.take k) off = word e bs off := by
  rw [word, word, ← Slice.run_eq_run_take bs h]

def inotifyFraming (e : Endian) : Framing UInt8 InotifyEvent where
  size bs := if 16 + word e bs 12 ≤ bs.length then some (16 + word e bs 12) else none
  view := eventOf e
  size_pos := by
    intro bs k h
    split_ifs at h with hk
    cases h
    omega
  size_le := by
    intro bs k h
    split_ifs at h with hk
    cases h
    exact hk
  size_take := by
    intro bs k h rest
    split_ifs at h with hk
    cases h
    have hlen : (bs.take (16 + word e bs 12)).length = 16 + word e bs 12 :=
      List.length_take_of_le hk
    have hsame : word e (bs.take (16 + word e bs 12) ++ rest) 12 = word e bs 12 := by
      rw [word_append e (by omega), word_take e (by omega)]
    rw [if_pos]
    · rw [hsame]
    · rw [hsame, List.length_append, hlen]
      omega

theorem isRecord_iff (e : Endian) (r : List UInt8) :
    (inotifyFraming e).IsRecord r ↔ r.length = 16 + word e r 12 := by
  simp only [Framing.IsRecord, inotifyFraming]
  constructor
  · intro h
    split_ifs at h with hk
    exact (Option.some.inj h).symm
  · intro hlen
    rw [if_pos hlen.ge, hlen]

def Ahead (it : InotifyEvents) (bs : List UInt8) : Prop := bs = it.buf.bytes

theorem next_of_size {e : Endian} {buf : Slice} {k : ℕ}
    (hk : (inotifyFraming e).size buf.bytes = some k) :
    ∃ rest : Slice, InotifyEvents.next e ⟨buf⟩ =
        .ok (some (eventOf e (buf.bytes.take k), ⟨rest⟩)) ∧ rest.bytes = buf.bytes.drop k := by
  have hlt := buf.len_lt
  have hlen : buf.bytes.length = buf.len := rfl
  simp only [inotifyFraming] at hk
  split_ifs at hk with hle
  cases hk
  have hne : ¬ buf.bytes.isEmpty := by
    rw [List.isEmpty_iff_length_eq_zero]
    omega
  have hfield : neVal e ((buf.bytes.drop 12).take 4) = word e buf.bytes 12 := rfl
  obtain ⟨rest, hfrom, hrest⟩ := Slice.rangeFrom_of_le (ε := Empty) (s := buf) hle
  refine ⟨rest, ?_, hrest⟩
  rw [InotifyEvents.next, if_neg hne]
  dsimp only
  rw [Slice.range_of_le (by omega) (by omega), ok_bind, Slice.range_of_le (by omega) (by omega), ok_bind,
    Slice.range_of_le (by omega) (by omega), ok_bind, Slice.range_of_le (by omega) (by omega),
    ok_bind, hfield, header, uadd_eq_ok (by omega), ok_bind,
    Slice.range_of_le (Nat.le_add_right _ _) (by omega), ok_bind, hfrom, ok_bind, eventOf,
    word_take e (by omega), word_take e (by omega), word_take e (by omega), List.drop_take]
  rfl

theorem next_of_size_none {e : Endian} {buf : Slice} (hne : buf.bytes ≠ [])
    (hk : (inotifyFraming e).size buf.bytes = none) : InotifyEvents.next e ⟨buf⟩ = .panic := by
  have hlt := buf.len_lt
  simp only [inotifyFraming] at hk
  split_ifs at hk with hle
  have hlen : buf.bytes.length = buf.len := rfl
  have hfield : neVal e ((buf.bytes.drop 12).take 4) = word e buf.bytes 12 := rfl
  rw [InotifyEvents.next, if_neg (by simpa using hne)]
  dsimp only
  -- Either one of the four header fields is cut off or the name is.
  by_cases h4 : 4 ≤ buf.len
  · rw [Slice.range_of_le (by omega) h4, ok_bind]
    by_cases h8 : 8 ≤ buf.len
    · rw [Slice.range_of_le (by omega) h8, ok_bind]
      by_cases h12 : 12 ≤ buf.len
      · rw [Slice.range_of_le (by omega) h12, ok_bind]
        by_cases h16 : 16 ≤ buf.len
        · rw [Slice.range_of_le (by omega) h16, ok_bind, hfield, header]
          by_cases hover : 16 + word e buf.bytes 12 < 2 ^ 64
          · rw [uadd_eq_ok hover, ok_bind, Slice.range_panic fun h => hle h.2]
            rfl
          · rw [uadd, if_neg hover]
            rfl
        · rw [Slice.range_panic (by omega)]
          rfl
      · rw [Slice.range_panic (by omega)]
        rfl
    · rw [Slice.range_panic (by omega)]
      rfl
  · rw [Slice.range_panic (by omega)]
    rfl

theorem next_match (e : Endian) (it : InotifyEvents) (bs : List UInt8) (h : Ahead it bs) :
    StepMatch Ahead (it.next e) ((inotifyFraming e).next bs) := by
  obtain ⟨buf⟩ := it
  have hbs : bs = buf.bytes := h
  subst hbs
  by_cases hne : buf.bytes = []
  · rw [hne, Framing.next_nil, InotifyEvents.next, if_pos (by simpa using hne)]
    trivial
  · cases hk : (inotifyFraming e).size buf.bytes with
    | none =>
      rw [next_of_size_none hne hk, Framing.next_of_size_none hne hk]
      trivial
    | some k =>
      obtain ⟨rest, hnext, hrest⟩ := next_of_size hk
      rw [hnext, Framing.next_of_size hk]
      exact ⟨rfl, hrest.symm⟩

theorem drain_inotifyEvents (e : Endian) (buf : Slice) (fuel : ℕ) :
    drain (InotifyEvents.next e) fuel (inotifyEvents buf) =
      drain (inotifyFraming e).next fuel buf.bytes :=
  drain_simulation (next_match e) fuel rfl

/-- The name bytes of an event: none at all, or a NUL-free name and `pads + 1`
NULs. -/
inductive NameField where
  | absent
  | named (name : List UInt8) (pads : ℕ) (nul_free : 0 ∉ name)

def NameField.bytes : NameField → List UInt8
  | .absent => []
  | .named name pads _ => name ++ List.replicate (pads + 1) 0

def NameField.original : NameField → Option (List UInt8)
  | .absent => none
  | .named name _ _ => some name

theorem NameField.absent_fits : NameField.absent.bytes.length < 2 ^ 32 := by decide

structure Event where
  wd : Int32
  mask : UInt32
  cookie : UInt32
  field : NameField
  fits : field.bytes.length < 2 ^ 32

def Event.encode (e : Endian) (x : Event) : List UInt8 :=
  neBytes e 4 x.wd.toBitVec.toNat ++ (neBytes e 4 x.mask.toNat ++ (neBytes e 4 x.cookie.toNat ++
    (neBytes e 4 x.field.bytes.length ++ x.field.bytes)))

def Event.parsed (x : Event) : InotifyEvent := ⟨x.wd, x.mask, x.cookie, x.field.bytes⟩

theorem Event.name_parsed (x : Event) : x.parsed.name = x.field.original := by
  obtain ⟨wd, mask, cookie, field, fits⟩ := x
  cases field with
  | absent => rfl
  | named name pads nul_free =>
    have hmem : (0 : UInt8) ∈ name ++ List.replicate (pads + 1) 0 := by simp
    have hwhile : (name ++ List.replicate (pads + 1) 0).takeWhile (· ≠ 0) = name :=
      takeWhile_nul nul_free (Or.inr rfl)
    simp only [Event.parsed, InotifyEvent.name, NameField.bytes, NameField.original,
      fromBytesUntilNul, if_pos hmem, hwhile]
    simp

theorem Event.word_encode (e : Endian) (x : Event) :
    word e (x.encode e) 0 = x.wd.toBitVec.toNat ∧ word e (x.encode e) 4 = x.mask.toNat ∧
      word e (x.encode e) 8 = x.cookie.toNat ∧
      word e (x.encode e) 12 = x.field.bytes.length := by
  have hread : ∀ (pre post : List UInt8) (v : ℕ), v < 2 ^ 32 →
      word e (pre ++ (neBytes e 4 v ++ post)) pre.length = v := by
    intro pre post v hv
    rw [word, List.drop_left, List.take_left' (by simp), neVal_neBytes_of_lt e hv]
  refine ⟨hread [] _ _ x.wd.toBitVec.isLt, ?_, ?_, ?_⟩
  · simpa [Event.encode] using hread (neBytes e 4 x.wd.toBitVec.toNat)
      (neBytes e 4 x.cookie.toNat ++ (neBytes e 4 x.field.bytes.length ++ x.field.bytes)) _
      x.mask.toNat_lt
  · simpa [Event.encode] using hread (neBytes e 4 x.wd.toBitVec.toNat ++ neBytes e 4 x.mask.toNat)
      (neBytes e 4 x.field.bytes.length ++ x.field.bytes) _ x.cookie.toNat_lt
  · simpa [Event.encode] using hread (neBytes e 4 x.wd.toBitVec.toNat ++
      (neBytes e 4 x.mask.toNat ++ neBytes e 4 x.cookie.toNat)) x.field.bytes _ x.fits

theorem Event.isRecord (e : Endian) (x : Event) : (inotifyFraming e).IsRecord (x.encode e) := by
  rw [isRecord_iff, (x.word_encode e).2.2.2]
  simp [Event.encode]
  omega

theorem Event.eventOf_encode (e : Endian) (x : Event) : eventOf e (x.encode e) = x.parsed := by
  obtain ⟨hwd, hmask, hcookie, -⟩ := x.word_encode e
  have hname : (x.encode e).drop 16 = x.field.bytes := by
    rw [Event.encode, ← List.append_assoc, ← List.append_assoc, ← List.append_assoc,
      List.drop_left' (by simp)]
  rw [eventOf, hwd, hmask, hcookie, hname, UInt32.ofNat_toNat, UInt32.ofNat_toNat,
    BitVec.ofNat_toNat, BitVec.setWidth_eq]
  rfl

/-- Draining an inotify buffer. It ends, for any budget above the length of
the buffer, in the events or in a panic; it ends in the events exactly when the
buffer is a concatenation of headers each followed by the name bytes it
announces; encoded events come back with their names; and a buffer cut inside a
record panics. -/
theorem inotifyEvents_exact (e : Endian) :
    (∀ (buf : Slice) (fuel : ℕ), buf.len < fuel →
      ((∃ evs, drain (InotifyEvents.next e) fuel (inotifyEvents buf) = .ok evs) ∨
        drain (InotifyEvents.next e) fuel (inotifyEvents buf) = .panic) ∧
      ((∃ evs, drain (InotifyEvents.next e) fuel (inotifyEvents buf) = .ok evs) ↔
        ∃ rs : List (List UInt8), rs.flatten = buf.bytes ∧
          ∀ r ∈ rs, r.length = 16 + word e r 12) ∧
      (∀ rs : List (List UInt8), rs.flatten = buf.bytes →
        (∀ r ∈ rs, r.length = 16 + word e r 12) →
        drain (InotifyEvents.next e) fuel (inotifyEvents buf) = .ok (rs.map (eventOf e)))) ∧
    (∀ (xs : List Event) (buf : Slice), buf.bytes = xs.flatMap (Event.encode e) →
      ∀ fuel, buf.len < fuel →
        drain (InotifyEvents.next e) fuel (inotifyEvents buf) = .ok (xs.map Event.parsed)) ∧
    (∀ x : Event, x.parsed.name = x.field.original) ∧
    (∀ (rs : List (List UInt8)) (r : List UInt8) (j : ℕ) (buf : Slice),
      (∀ r' ∈ r :: rs, r'.length = 16 + word e r' 12) → 0 < j → j < r.length →
      buf.bytes = rs.flatten ++ r.take j → ∀ fuel, buf.len < fuel →
        drain (InotifyEvents.next e) fuel (inotifyEvents buf) = .panic) := by
  refine ⟨fun buf fuel hfuel => ⟨?_, ?_, ?_⟩, ?_, Event.name_parsed, ?_⟩
  · rw [drain_inotifyEvents]
    exact Framing.drain_total hfuel
  · rw [drain_inotifyEvents, Framing.drain_iff hfuel]
    simp only [isRecord_iff]
  · intro rs hflat hrs
    rw [drain_inotifyEvents, ← hflat]
    exact Framing.drain_flatten (fun r hr => (isRecord_iff e r).mpr (hrs r hr)) (hflat ▸ hfuel)
  · intro xs buf hbuf fuel hfuel
    rw [Slice.len, hbuf] at hfuel
    rw [drain_inotifyEvents, hbuf, Framing.drain_encoded (fun x => x.isRecord e) xs hfuel]
    exact congrArg _ (List.map_congr_left fun x _ => x.eventOf_encode e)
  · intro rs r j buf hrecords hj hjr hbuf fuel hfuel
    rw [Slice.len, hbuf, List.length_append] at hfuel
    obtain ⟨hr, hrs⟩ := List.forall_mem_cons.mp hrecords
    rw [drain_inotifyEvents, hbuf]
    exact Framing.drain_cut (fun r' hr' => (isRecord_iff e r').mpr (hrs r' hr'))
      ((isRecord_iff e r).mpr hr) hj hjr (by omega)

def eventLeaf : Event where
  wd := 1
  mask := 0x100
  cookie := 0
  field := .named [108, 101, 97, 102] 11 (by decide)
  fits := by decide

def eventSelf : Event where
  wd := 1
  mask := 0x400
  cookie := 0
  field := .absent
  fits := NameField.absent_fits

theorem inotifyEvents_exact_eventLeaf :
    drain (InotifyEvents.next .little) 49
      (inotifyEvents ⟨[eventLeaf, eventSelf].flatMap (Event.encode .little), by decide⟩) =
      .ok [eventLeaf.parsed, eventSelf.parsed] ∧
    eventLeaf.parsed.name = some [108, 101, 97, 102] ∧ eventSelf.parsed.name = none :=
  ⟨(inotifyEvents_exact .little).2.1 [eventLeaf, eventSelf] _ rfl 49 (by decide),
    (inotifyEvents_exact .little).2.2.1 eventLeaf, (inotifyEvents_exact .little).2.2.1 eventSelf⟩

end RustyLibc.Inotify
