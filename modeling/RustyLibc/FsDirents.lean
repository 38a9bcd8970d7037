import RustyLibc.ByteOrder
import RustyLibc.RecordStream

/-!
# Directory records (`fs.rs`, `Dirents`)

`Dirents.next` trusts the in-band `d_reclen`: the slice `rec[19..d_reclen]` is
the only place where a bad length is noticed, and it is noticed by a panic. The
iterator is compared with the framing whose record length is `d_reclen` when
`19 ≤ d_reclen` and that many bytes remain. The step of the one is the step of
the other, so the results on record streams apply.
-/

namespace RustyLibc.Fs
open Outcome ByteOrder RecordStream

structure RawDirent where
  dIno : UInt64
  dType : UInt8
  dName : List UInt8
  deriving DecidableEq, Repr

structure Dirents where
  buf : Slice
  pos : ℕ

def dirents (buf : Slice) : Dirents := ⟨buf, 0⟩

def Dirents.next (e : Endian) (it : Dirents) : Outcome Empty (Option (RawDirent × Dirents)) :=
  if it.pos ≥ it.buf.len then pure none
  else do
    let record ← it.buf.rangeFrom it.pos
    let ino ← record.range 0 8
    let reclen ← record.range 16 18
    let dReclen := neVal e reclen
    let dType ← record.index 18
    let nameRegion ← record.range 19 dReclen
    let nul := (nameRegion.findIdx? (· == 0)).getD nameRegion.length
    let dName := nameRegion.take nul
    let pos ← uadd it.pos dReclen
    pure (some (⟨UInt64.ofNat (neVal e ino), dType, dName⟩, ⟨it.buf, pos⟩))

def reclen (e : Endian) (r : List UInt8) : ℕ := neVal e ((r.drop 16).take 2)

def direntOf (e : Endian) (r : List UInt8) : RawDirent where
  dIno := UInt64.ofNat (neVal e (r.take 8))
  dType := r.getD 18 0
  dName := (r.drop 19).takeWhile (· ≠ 0)

theorem reclen_append (e : Endian) {r : List UInt8} (h : 18 ≤ r.length) (rest : List UInt8) :
    reclen e (r ++ rest) = reclen e r := by
  have hdrop : 2 ≤ (r.drop 16).length := by
    rw [List.length_drop]
    omega
  rw [reclen, reclen, List.drop_append_of_le_length (by omega), List.take_append_of_le_length hdrop]

theorem reclen_take (e : Endian) {bs : List UInt8} {k : ℕ} (h : 18 ≤ k) :
    reclen e (bs.take k) = reclen e bs := by
  rw [reclen, reclen, ← Slice.run_eq_run_take bs (by omega)]

def direntFraming (e : Endian) : Framing UInt8 RawDirent where
  size bs := if 19 ≤ reclen e bs ∧ reclen e bs ≤ bs.length then some (reclen e bs) else none
  view := direntOf e
  size_pos := by
    intro bs k h
    split_ifs at h with hk
    cases h
    omega
  size_le := by
    intro bs k h
    split_ifs at h with hk
    cases h
    exact hk.2
  size_take := by
    intro bs k h rest
    split_ifs at h with hk
    cases h
    have hlen : (bs.take (reclen e bs)).length = reclen e bs := List.length_take_of_le hk.2
    have hsame : reclen e (bs.take (reclen e bs) ++ rest) = reclen e bs := by
      rw [reclen_append e (by omega), reclen_take e (by omega)]
    rw [if_pos]
    · rw [hsame]
    · rw [hsame, List.length_append, hlen]
      omega

theorem isRecord_iff (e : Endian) (r : List UInt8) :
    (direntFraming e).IsRecord r ↔ 19 ≤ r.length ∧ reclen e r = r.length := by
  simp only [Framing.IsRecord, direntFraming]
  constructor
  · intro h
    split_ifs at h with hk
    have hlen := Option.some.inj h
    omega
  · intro h
    obtain ⟨h19, hlen⟩ := h
    rw [if_pos (by omega), hlen]

theorem take_findIdx?_getD (l : List UInt8) :
    l.take ((l.findIdx? (· == 0)).getD l.length) = l.takeWhile (· ≠ 0) := by
  induction l with
  | nil => rfl
  | cons b l ih =>
    by_cases hb : b = 0
    · simp [List.findIdx?_cons, hb]
    · cases hl : l.findIdx? (· == 0) with
      | none => simpa [List.findIdx?_cons, hb, hl] using ih
      | some i => simpa [List.findIdx?_cons, hb, hl] using ih

def Ahead (it : Dirents) (bs : List UInt8) : Prop := bs = it.buf.bytes.drop it.pos

theorem next_of_size {e : Endian} {it : Dirents} {bs : List UInt8} (h : Ahead it bs)
    (hne : bs ≠ []) {k : ℕ} (hk : (direntFraming e).size bs = some k) :
    it.next e = .ok (some (direntOf e (bs.take k), ⟨it.buf, it.pos + k⟩)) := by
  obtain ⟨buf, pos⟩ := it
  subst h
  have hpos : pos < buf.len := by
    by_contra hge
    exact hne (List.drop_eq_nil_of_le (Nat.not_lt.mp hge))
  have hlt := buf.len_lt
  simp only [direntFraming] at hk
  split_ifs at hk with hrec
  cases hk
  set bs := buf.bytes.drop pos with hbs
  have hlen : bs.length = buf.len - pos := List.length_drop
  obtain ⟨record, hfrom, hbytes⟩ := Slice.rangeFrom_of_le hpos.le
  have hrl : record.len = bs.length := by rw [Slice.len, hbytes]
  obtain ⟨b, hb, hidx⟩ := Slice.index_of_lt (ε := Empty) (s := record) (i := 18) (by omega)
  rw [hbytes] at hb
  have hreclen : neVal e ((bs.drop 16).take 2) = reclen e bs := rfl
  have htype : (bs.take (reclen e bs)).getD 18 0 = b := by
    rw [List.getD_eq_getElem?_getD, List.getElem?_take_of_lt (by omega), hb]
    rfl
  have hino : (bs.take (reclen e bs)).take 8 = bs.take 8 := by
    rw [List.take_take, Nat.min_eq_left (by omega)]
  rw [Dirents.next, if_neg (Nat.not_le.mpr hpos), hfrom, ok_bind,
    Slice.range_of_le (by omega) (by omega), ok_bind, Slice.range_of_le (by omega) (by omega),
    ok_bind, hbytes]
  dsimp only
  rw [hidx, ok_bind, hreclen, Slice.range_of_le hrec.1 (by omega), ok_bind,
    uadd_eq_ok (by omega), ok_bind, hbytes, take_findIdx?_getD, direntOf, htype, hino,
    List.drop_take]
  rfl

theorem next_of_size_none {e : Endian} {it : Dirents} {bs : List UInt8} (h : Ahead it bs)
    (hne : bs ≠ []) (hk : (direntFraming e).size bs = none) : it.next e = .panic := by
  obtain ⟨buf, pos⟩ := it
  subst h
  have hpos : pos < buf.len := by
    by_contra hge
    exact hne (List.drop_eq_nil_of_le (Nat.not_lt.mp hge))
  simp only [direntFraming] at hk
  split_ifs at hk with hrec
  obtain ⟨record, hfrom, hbytes⟩ := Slice.rangeFrom_of_le hpos.le
  rw [← hbytes] at hrec
  have hreclen : neVal e ((record.bytes.drop 16).take 2) = reclen e record.bytes := rfl
  rw [Dirents.next, if_neg (Nat.not_le.mpr hpos), hfrom, ok_bind]
  -- The record is too short for its fixed fields, or only its length field is wrong.
  by_cases h8 : 8 ≤ record.len
  · rw [Slice.range_of_le (by omega) h8, ok_bind]
    by_cases h18 : 18 ≤ record.len
    · rw [Slice.range_of_le (by omega) h18, ok_bind]
      dsimp only
      rw [hreclen]
      by_cases h19 : 18 < record.len
      · obtain ⟨b, -, hidx⟩ := Slice.index_of_lt (ε := Empty) h19
        rw [hidx, ok_bind, Slice.range_panic hrec]
        rfl
      · rw [Slice.index_panic (by omega)]
        rfl
    · rw [Slice.range_panic (by omega)]
      rfl
  · rw [Slice.range_panic (by omega)]
    rfl

theorem next_match (e : Endian) (it : Dirents) (bs : List UInt8) (h : Ahead it bs) :
    StepMatch Ahead (it.next e) ((direntFraming e).next bs) := by
  by_cases hne : bs = []
  · have hpos : it.pos ≥ it.buf.len := by
      subst hne
      exact List.drop_eq_nil_iff.mp h.symm
    rw [hne, Framing.next_nil, Dirents.next, if_pos hpos]
    trivial
  · cases hk : (direntFraming e).size bs with
    | none =>
      rw [next_of_size_none h hne hk, Framing.next_of_size_none hne hk]
      trivial
    | some k =>
      rw [next_of_size h hne hk, Framing.next_of_size hk]
      refine ⟨rfl, ?_⟩
      rw [Ahead, h, List.drop_drop]

theorem drain_dirents (e : Endian) (buf : Slice) (fuel : ℕ) :
    drain (Dirents.next e) fuel (dirents buf) =
      drain (direntFraming e).next fuel buf.bytes :=
  drain_simulation (next_match e) fuel rfl

/-- One `linux_dirent64`: the name is NUL-free and what pads it to the record
length starts with a NUL if there is any. -/
structure Entry where
  ino : UInt64
  off : UInt64
  dtype : UInt8
  name : List UInt8
  padding : List UInt8
  nul_free : 0 ∉ name
  padding_nul : padding = [] ∨ padding.head? = some 0
  fits : 19 + name.length + padding.length < 2 ^ 16

def Entry.encode (e : Endian) (x : Entry) : List UInt8 :=
  neBytes e 8 x.ino.toNat ++ (neBytes e 8 x.off.toNat ++
    (neBytes e 2 (19 + x.name.length + x.padding.length) ++ (x.dtype :: (x.name ++ x.padding))))

def Entry.dirent (x : Entry) : RawDirent := ⟨x.ino, x.dtype, x.name⟩

theorem Entry.length_encode (e : Endian) (x : Entry) :
    (x.encode e).length = 19 + x.name.length + x.padding.length := by
  simp [Entry.encode]
  omega

theorem Entry.isRecord (e : Endian) (x : Entry) : (direntFraming e).IsRecord (x.encode e) := by
  have hfield : ((x.encode e).drop 16).take 2 =
      neBytes e 2 (19 + x.name.length + x.padding.length) := by
    rw [Entry.encode, ← List.append_assoc, List.drop_left' (by simp), List.take_left' (by simp)]
  refine (isRecord_iff e _).mpr ⟨by rw [x.length_encode]; omega, ?_⟩
  rw [reclen, hfield, neVal_neBytes_of_lt e x.fits, x.length_encode]

theorem Entry.direntOf_encode (e : Endian) (x : Entry) : direntOf e (x.encode e) = x.dirent := by
  have hino : (x.encode e).take 8 = neBytes e 8 x.ino.toNat := List.take_left' (by simp)
  have htail : (x.encode e).drop 18 = x.dtype :: (x.name ++ x.padding) := by
    rw [Entry.encode, ← List.append_assoc, ← List.append_assoc, List.drop_left' (by simp)]
  have htype : (x.encode e).getD 18 0 = x.dtype := by
    rw [List.getD_eq_getElem?_getD, ← List.head?_drop, htail]
    rfl
  have hname : (x.encode e).drop 19 = x.name ++ x.padding := by
    rw [← List.drop_drop (i := 1) (j := 18), htail]
    rfl
  rw [direntOf, hino, htype, hname, takeWhile_nul x.nul_free x.padding_nul, neVal_neBytes_of_lt e x.ino.toNat_lt,
    UInt64.ofNat_toNat]
  rfl

/-- Draining a directory buffer. It ends, for any budget above the length of
the buffer, in the entries or in a panic; it ends in the entries exactly when
the buffer is a concatenation of records whose `d_reclen` is their length;
encoded entries come back as they were; and a buffer cut inside a record
panics. -/
theorem dirents_exact (e : Endian) :
    (∀ (buf : Slice) (fuel : ℕ), buf.len < fuel →
      ((∃ ds, drain (Dirents.next e) fuel (dirents buf) = .ok ds) ∨
        drain (Dirents.next e) fuel (dirents buf) = .panic) ∧
      ((∃ ds, drain (Dirents.next e) fuel (dirents buf) = .ok ds) ↔
        ∃ rs : List (List UInt8), rs.flatten = buf.bytes ∧
          ∀ r ∈ rs, 19 ≤ r.length ∧ reclen e r = r.length) ∧
      (∀ rs : List (List UInt8), rs.flatten = buf.bytes →
        (∀ r ∈ rs, 19 ≤ r.length ∧ reclen e r = r.length) →
        drain (Dirents.next e) fuel (dirents buf) = .ok (rs.map (direntOf e)))) ∧
    (∀ (xs : List Entry) (buf : Slice), buf.bytes = xs.flatMap (Entry.encode e) →
      ∀ fuel, buf.len < fuel →
        drain (Dirents.next e) fuel (dirents buf) = .ok (xs.map Entry.dirent)) ∧
    (∀ (xs : List Entry) (x : Entry) (j : ℕ) (buf : Slice), 0 < j → j < (x.encode e).length →
      buf.bytes = xs.flatMap (Entry.encode e) ++ (x.encode e).take j →
      ∀ fuel, buf.len < fuel → drain (Dirents.next e) fuel (dirents buf) = .panic) := by
  refine ⟨fun buf fuel hfuel => ⟨?_, ?_, ?_⟩, ?_, ?_⟩
  · rw [drain_dirents]
    exact Framing.drain_total hfuel
  · rw [drain_dirents, Framing.drain_iff hfuel]
    simp only [isRecord_iff]
  · intro rs hflat hrs
    rw [drain_dirents, ← hflat]
    exact Framing.drain_flatten (fun r hr => (isRecord_iff e r).mpr (hrs r hr)) (hflat ▸ hfuel)
  · intro xs buf hbuf fuel hfuel
    rw [Slice.len, hbuf] at hfuel
    rw [drain_dirents, hbuf, Framing.drain_encoded (fun x => x.isRecord e) xs hfuel]
    exact congrArg _ (List.map_congr_left fun x _ => x.direntOf_encode e)
  · intro xs x j buf hj hjx hbuf fuel hfuel
    rw [Slice.len, hbuf] at hfuel
    rw [drain_dirents, hbuf]
    exact Framing.drain_encoded_cut (fun x => x.isRecord e) xs x hj hjx hfuel

def entryA : Entry where
  ino := 7
  off := 1
  dtype := 8
  name := [97]
  padding := [0, 0, 0, 0]
  nul_free := by decide
  padding_nul := by decide
  fits := by decide

def entryBin : Entry where
  ino := 9
  off := 2
  dtype := 4
  name := [98, 105, 110]
  padding := [0, 0]
  nul_free := by decide
  padding_nul := by decide
  fits := by decide

theorem dirents_exact_entryA :
    drain (Dirents.next .little) 49
      (dirents ⟨[entryA, entryBin].flatMap (Entry.encode .little), by decide⟩) =
      .ok [⟨7, 8, [97]⟩, ⟨9, 4, [98, 105, 110]⟩] :=
  (dirents_exact .little).2.1 [entryA, entryBin] _ rfl 49 (by decide)

end RustyLibc.Fs
