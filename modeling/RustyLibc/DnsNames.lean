import RustyLibc.DnsMessage

/-!
# The names that `skip_name` walks over (`dns.rs`)

The two top bits of a length octet tell a label (00) from a compression pointer
(11) and are reserved otherwise. `skip_name` tests for 11 alone, so that the
octets 64 to 191 count as label lengths. `NameAt limit` is the grammar of names
whose labels are at most `limit` octets long: the reader accepts `NameAt 191`,
the wire format is `NameAt 63`, and they part exactly at an `OverlongAt`.
-/

namespace RustyLibc.Dns
open Outcome ByteOrder

/-- The bytes of `bs` from `pos` up to the second position are a name with
labels of at most `limit` octets. -/
inductive NameAt (limit : ℕ) (bs : List UInt8) : ℕ → ℕ → Prop where
  | root {pos : ℕ} (zero : bs[pos]? = some 0) : NameAt limit bs pos (pos + 1)
  | pointer {pos : ℕ} {hi lo : UInt8} (first : bs[pos]? = some hi) (top : hi &&& 0xC0 = 0xC0)
      (second : bs[pos + 1]? = some lo) : NameAt limit bs pos (pos + 2)
  | label {pos p : ℕ} {len : UInt8} (octet : bs[pos]? = some len) (length_pos : 1 ≤ len.toNat)
      (length_le : len.toNat ≤ limit) (inside : pos + (1 + len.toNat) ≤ bs.length)
      (rest : NameAt limit bs (pos + (1 + len.toNat)) p) : NameAt limit bs pos p

/-- From `pos` on stand labels with length octets 1 to 191, one of them at
least 64, and they end inside the buffer as a name does. -/
inductive OverlongAt (bs : List UInt8) : ℕ → Prop where
  | here {pos p : ℕ} {len : UInt8} (octet : bs[pos]? = some len) (reserved : 64 ≤ len.toNat)
      (length_le : len.toNat ≤ 191) (rest : NameAt 191 bs (pos + (1 + len.toNat)) p) :
      OverlongAt bs pos
  | later {pos : ℕ} {len : UInt8} (octet : bs[pos]? = some len) (length_pos : 1 ≤ len.toNat)
      (length_le : len.toNat ≤ 63) (rest : OverlongAt bs (pos + (1 + len.toNat))) :
      OverlongAt bs pos

theorem pointer_octet_iff (b : UInt8) : b &&& 0xC0 = 0xC0 ↔ 192 ≤ b.toNat := by
  have hall : ∀ k : Fin 256, UInt8.ofNat k.val &&& 0xC0 = 0xC0 ↔ 192 ≤ k.val := by
    decide +kernel
  have hb := hall ⟨b.toNat, b.toNat_lt⟩
  rwa [UInt8.ofNat_toNat] at hb

theorem label_octet_of_le {b : UInt8} (hpos : 1 ≤ b.toNat) (hle : b.toNat ≤ 191) :
    b ≠ 0 ∧ b &&& 0xC0 ≠ 0xC0 := by
  constructor
  · intro hzero
    rw [hzero] at hpos
    exact absurd hpos (by decide)
  · intro htop
    have hge := (pointer_octet_iff b).mp htop
    omega

namespace NameAt

variable {limit : ℕ} {bs : List UInt8} {pos p q : ℕ}

theorem mono {limit' : ℕ} (h : NameAt limit bs pos p) (hle : limit ≤ limit') :
    NameAt limit' bs pos p := by
  induction h with
  | root zero => exact root zero
  | pointer first top second => exact pointer first top second
  | label octet length_pos length_le inside rest ih =>
    exact label octet length_pos (length_le.trans hle) inside ih

theorem lt_length (h : NameAt limit bs pos p) : pos < bs.length := by
  cases h with
  | root zero => exact (List.getElem?_eq_some_iff.mp zero).1
  | pointer first top second => exact (List.getElem?_eq_some_iff.mp first).1
  | label octet length_pos length_le inside rest => exact (List.getElem?_eq_some_iff.mp octet).1

theorem skipName {buf : Slice} (h : NameAt 191 buf.bytes pos p) : skipName buf pos = .ok p := by
  induction h with
  | root zero => exact skipName_root zero
  | pointer first top second =>
    have hin := lt_len_of_getElem? second
    rw [skipName_pointer first top, if_neg (Nat.not_le.mpr hin)]
  | label octet length_pos length_le inside rest ih =>
    obtain ⟨hzero, htop⟩ := label_octet_of_le length_pos length_le
    rw [skipName_label octet hzero htop, ih]

end NameAt

theorem Holds.cons {buf : Slice} {pos : ℕ} {b : UInt8} {bs : List UInt8}
    (hb : buf.bytes[pos]? = some b) (h : Holds buf (pos + 1) bs) : Holds buf pos (b :: bs) := by
  obtain ⟨hlt, hget⟩ := List.getElem?_eq_some_iff.mp hb
  rw [Holds, List.drop_eq_getElem_cons hlt, hget]
  exact List.cons_prefix_cons.mpr ⟨rfl, h⟩

theorem Holds.append {buf : Slice} {pos : ℕ} {a b : List UInt8} (ha : Holds buf pos a)
    (hb : Holds buf (pos + a.length) b) : Holds buf pos (a ++ b) := by
  obtain ⟨rest, hrest⟩ := ha
  have hdrop : buf.bytes.drop (pos + a.length) = rest := by
    rw [← List.drop_drop, ← hrest, List.drop_left]
  rw [Holds, ← hrest, List.prefix_append_right_inj]
  rwa [Holds, hdrop] at hb

theorem NameAt.of_holds {buf : Slice} {pos : ℕ} {m : Name} (h : Holds buf pos m.encode) :
    NameAt 63 buf.bytes pos (pos + m.encode.length) := by
  obtain ⟨labels, ending⟩ := m
  induction labels generalizing pos with
  | nil =>
    cases ending with
    | root => exact .root h.head
    | pointer hi lo top => exact .pointer h.head top h.tail.head
  | cons l labels ih =>
    rw [Name.encode_cons] at h
    rw [Name.encode_cons, List.length_append, ← Nat.add_assoc]
    obtain ⟨-, -, hval⟩ := label_octet l
    have hlen : l.encode.length = 1 + (UInt8.ofNat l.bytes.length).toNat := by
      rw [hval, Label.encode, List.length_cons, Nat.add_comm]
    have hrest := ih h.right
    rw [hlen] at hrest ⊢
    have hpos := l.length_pos
    have hle := l.length_le
    exact .label h.left.head (by omega) (by omega) hrest.lt_length.le hrest

theorem NameAt.holds {buf : Slice} {pos p : ℕ} (h : NameAt 63 buf.bytes pos p) :
    ∃ m : Name, Holds buf pos m.encode ∧ p = pos + m.encode.length := by
  induction h with
  | root zero => exact ⟨⟨[], .root⟩, Holds.cons zero (List.nil_prefix), rfl⟩
  | pointer first top second =>
    exact ⟨⟨[], .pointer _ _ top⟩, Holds.cons first (Holds.cons second List.nil_prefix), rfl⟩
  | @label pos p len octet length_pos length_le inside rest ih =>
    obtain ⟨⟨labels, ending⟩, hholds, hp⟩ := ih
    have hrun : ((buf.bytes.drop (pos + 1)).take len.toNat).length = len.toNat := by
      rw [List.length_take, List.length_drop]
      omega
    let l : Label := ⟨(buf.bytes.drop (pos + 1)).take len.toNat, by omega, by omega⟩
    have hlabel : Holds buf pos l.encode := by
      apply Holds.cons
      · rw [hrun, UInt8.ofNat_toNat]
        exact octet
      · exact List.take_prefix _ _
    have hlen : l.encode.length = 1 + len.toNat := by
      rw [Label.encode, List.length_cons, hrun, Nat.add_comm]
    refine ⟨⟨l :: labels, ending⟩, ?_, ?_⟩
    · rw [Name.encode_cons]
      exact hlabel.append (hlen ▸ hholds)
    · rw [Name.encode_cons, List.length_append, hlen, hp]
      omega

theorem nameAt_iff_holds (buf : Slice) (pos p : ℕ) :
    NameAt 63 buf.bytes pos p ↔ ∃ m : Name, Holds buf pos m.encode ∧ p = pos + m.encode.length := by
  constructor
  · exact NameAt.holds
  · rintro ⟨m, hholds, rfl⟩
    exact NameAt.of_holds hholds

theorem nameAt_of_skipName {buf : Slice} {pos p : ℕ} (h : skipName buf pos = .ok p) :
    NameAt 191 buf.bytes pos p := by
  -- by induction on the bytes left
  induction hleft : buf.len - pos using Nat.strong_induction_on generalizing pos with
  | _ left ih =>
    by_cases hpos : pos ≥ buf.len
    · rw [skipName_unfold, skipNameStep, if_pos hpos] at h
      exact absurd h (by simp)
    · obtain ⟨b, hb, -⟩ := Slice.index_of_lt (ε := Errno) (Nat.not_le.mp hpos)
      by_cases hzero : b = 0
      · subst hzero
        rw [skipName_root hb] at h
        exact Outcome.ok.inj h ▸ NameAt.root hb
      · by_cases htop : b &&& 0xC0 = 0xC0
        · rw [skipName_pointer hb htop] at h
          split_ifs at h with hend
          obtain ⟨lo, hlo, -⟩ := Slice.index_of_lt (ε := Errno) (Nat.not_le.mp hend)
          exact Outcome.ok.inj h ▸ NameAt.pointer hb htop hlo
        · rw [skipName_label hb hzero htop] at h
          have hbyte : b.toNat ≠ 0 := fun h0 => hzero (UInt8.toNat_inj.mp h0)
          have hlow := mt (pointer_octet_iff b).mpr htop
          have hrest := ih (buf.len - (pos + (1 + b.toNat))) (by omega) h rfl
          exact NameAt.label hb (by omega) (by omega) hrest.lt_length.le hrest

theorem skipName_eq_ok_iff (buf : Slice) (pos p : ℕ) :
    skipName buf pos = .ok p ↔ NameAt 191 buf.bytes pos p :=
  ⟨nameAt_of_skipName, NameAt.skipName⟩

theorem NameAt.short_or_overlong {bs : List UInt8} {pos p : ℕ} (h : NameAt 191 bs pos p) :
    NameAt 63 bs pos p ∨ OverlongAt bs pos := by
  induction h with
  | root zero => exact Or.inl (.root zero)
  | pointer first top second => exact Or.inl (.pointer first top second)
  | @label pos p len octet length_pos length_le inside rest ih =>
    by_cases hshort : len.toNat ≤ 63
    · rcases ih with hname | hover
      · exact Or.inl (.label octet length_pos hshort inside hname)
      · exact Or.inr (.later octet length_pos hshort hover)
    · exact Or.inr (.here octet (by omega) length_le rest)

namespace OverlongAt

variable {bs : List UInt8} {pos p : ℕ}

theorem nameAt (h : OverlongAt bs pos) : ∃ p, NameAt 191 bs pos p := by
  induction h with
  | here octet reserved length_le rest =>
    exact ⟨_, .label octet (by omega) length_le rest.lt_length.le rest⟩
  | later octet length_pos length_le rest ih =>
    obtain ⟨p, hp⟩ := ih
    exact ⟨p, .label octet length_pos (by omega) hp.lt_length.le hp⟩

theorem not_nameAt (h : OverlongAt bs pos) : ¬ NameAt 63 bs pos p := by
  -- the octet at `pos` decides which rule applies, so a name would have to take the long label
  induction h with
  | @here pos _ len octet reserved length_le rest =>
    obtain ⟨hzero, htop⟩ := label_octet_of_le (b := len) (by omega) length_le
    intro hname
    cases hname with
    | root zero => exact hzero (Option.some.inj (octet.symm.trans zero))
    | pointer first top second =>
      exact htop (Option.some.inj (octet.symm.trans first) ▸ top)
    | label octet' length_pos' length_le' inside rest' =>
      have hlen := Option.some.inj (octet.symm.trans octet')
      rw [← hlen] at length_le'
      omega
  | @later pos len octet length_pos length_le rest ih =>
    obtain ⟨hzero, htop⟩ := label_octet_of_le length_pos (by omega)
    intro hname
    cases hname with
    | root zero => exact hzero (Option.some.inj (octet.symm.trans zero))
    | pointer first top second =>
      exact htop (Option.some.inj (octet.symm.trans first) ▸ top)
    | label octet' length_pos' length_le' inside rest' =>
      have hlen := Option.some.inj (octet.symm.trans octet')
      rw [← hlen] at rest'
      exact ih rest'

end OverlongAt

/-- `skip_name` accepts the names of the wire format and nothing else, it ends,
and no pass of its loop moves backwards. -/
def SkipsNames (buf : Slice) (pos : ℕ) : Prop :=
  (∀ p, skipName buf pos = .ok p ↔ NameAt 63 buf.bytes pos p) ∧
    ((¬ ∃ p, NameAt 63 buf.bytes pos p) → skipName buf pos = .err .EINVAL) ∧
    Sat (skipName buf pos) (fun p => pos < p ∧ p ≤ buf.len) (· = .EINVAL) ∧
    ∀ q r, skipNameStep buf q = .ok (.next r) → q < r

theorem skipName_err_of_no_name {buf : Slice} {pos : ℕ} (h : ¬ ∃ p, NameAt 191 buf.bytes pos p) :
    skipName buf pos = .err .EINVAL := by
  rcases (skipName_sat buf pos).ok_or_err with ⟨p, hp, -⟩ | ⟨e, he, rfl⟩
  · exact absurd ⟨p, nameAt_of_skipName hp⟩ h
  · exact he

/-- The reader is exact wherever no label takes a length octet with a reserved
prefix and still ends inside the buffer. -/
theorem skipName_exact_iff (buf : Slice) (pos : ℕ) :
    SkipsNames buf pos ↔ ¬ OverlongAt buf.bytes pos := by
  constructor
  · intro hskips hover
    obtain ⟨p, hp⟩ := hover.nameAt
    have hname := (hskips.1 p).mp hp.skipName
    exact hover.not_nameAt hname
  · intro hnot
    have hsame : ∀ p, NameAt 191 buf.bytes pos p ↔ NameAt 63 buf.bytes pos p := fun p =>
      ⟨fun h => h.short_or_overlong.resolve_right hnot, fun h => h.mono (by omega)⟩
    refine ⟨fun p => (skipName_eq_ok_iff buf pos p).trans (hsame p), fun hnone => ?_,
      skipName_sat buf pos, fun q r h => (skipNameStep_next h).2⟩
    apply skipName_err_of_no_name
    rintro ⟨p, hp⟩
    exact hnone ⟨p, (hsame p).mp hp⟩

def overlongLabel : Slice := ⟨0x40 :: List.replicate 64 97 ++ [0], by decide⟩

theorem skipName_overlongLabel :
    skipName overlongLabel 0 = .ok 66 ∧ ¬ NameAt 63 overlongLabel.bytes 0 66 ∧
      ¬ SkipsNames overlongLabel 0 := by
  have hoctet : overlongLabel.bytes[0]? = some 0x40 := rfl
  have hrest : NameAt 191 overlongLabel.bytes 65 66 := .root rfl
  have hover : OverlongAt overlongLabel.bytes 0 := .here hoctet (by decide) (by decide) hrest
  refine ⟨?_, hover.not_nameAt, fun hskips => ?_⟩
  · exact NameAt.skipName (.label hoctet (by decide) (by decide) (by decide) hrest)
  · obtain ⟨p, hp⟩ := hover.nameAt
    exact hover.not_nameAt ((hskips.1 p).mp hp.skipName)

end RustyLibc.Dns
