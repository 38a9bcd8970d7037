import RustyLibc.DnsConfig
import Mathlib.Data.List.Forall2

/-!
# Dotted quads and what `parse_ipv4` takes for one (`dns.rs`)

`parse_ipv4` leaves the syntax of a field to `u8::from_str`, which lets a plus
sign stand in front of the digits. Apart from that its texts are the dotted
quads, so it is exact on every text but a quad with a sign in it.
-/

namespace RustyLibc.Dns
open Text

def IsQuad (s : List Char) (a : Octets) : Prop :=
  ∃ fields, s = ['.'].intercalate fields ∧
    List.Forall₂ (fun f b => Numeral f b.toNat) fields a.toList

def SignedField (f : List Char) (b : UInt8) : Prop :=
  Numeral f b.toNat ∨ ∃ digits, f = '+' :: digits ∧ Numeral digits b.toNat

/-- A dotted quad with a plus sign in front of at least one of its numerals. -/
def SignedQuad (s : List Char) : Prop :=
  ∃ fields, ∃ a : Octets, s = ['.'].intercalate fields ∧
    List.Forall₂ SignedField fields a.toList ∧ ∃ f ∈ fields, f.head? = some '+'

def ParsesQuad (s : List Char) : Prop :=
  (∀ a, parseIpv4 s = some a ↔ IsQuad s a) ∧ ((¬ ∃ a, IsQuad s a) → parseIpv4 s = none)

theorem exists_fields_iff {R : List Char → UInt8 → Prop} (hR : ∀ f b, R f b → '.' ∉ f)
    {s : List Char} {bs : List UInt8} (hbs : bs ≠ []) {P : List (List Char) → Prop} :
    (∃ fields, s = ['.'].intercalate fields ∧ List.Forall₂ R fields bs ∧ P fields) ↔
      List.Forall₂ R (s.splitOn '.') bs ∧ P (s.splitOn '.') := by
  constructor
  · rintro ⟨fields, rfl, hfields, hP⟩
    have hne : fields ≠ [] := by
      rintro rfl
      exact hbs (List.forall₂_nil_left_iff.mp hfields)
    have hdots : ∀ f ∈ fields, '.' ∉ f := by
      intro f hf
      obtain ⟨i, hi, rfl⟩ := List.getElem_of_mem hf
      exact hR _ _ (hfields.get hi (hfields.length_eq ▸ hi))
    rw [List.splitOn_intercalate '.' hdots hne]
    exact ⟨hfields, hP⟩
  · rintro ⟨hfields, hP⟩
    exact ⟨s.splitOn '.', (List.intercalate_splitOn '.').symm, hfields, hP⟩

theorem SignedField.dot_not_mem {f : List Char} {b : UInt8} (h : SignedField f b) : '.' ∉ f := by
  rcases h with hnum | ⟨digits, rfl, hnum⟩
  · exact hnum.not_mem rfl
  · intro hdot
    rcases List.mem_cons.mp hdot with hplus | hmem
    · exact absurd hplus (by decide)
    · exact hnum.not_mem rfl hmem

theorem toList_ne_nil (a : Octets) : a.toList ≠ [] := by
  intro hnil
  have hlen := a.length_toList
  rw [hnil] at hlen
  exact absurd hlen (by decide)

theorem isQuad_iff {s : List Char} {a : Octets} :
    IsQuad s a ↔ List.Forall₂ (fun f b => Numeral f b.toNat) (s.splitOn '.') a.toList := by
  have hfields := exists_fields_iff (s := s) (fun f (b : UInt8) (h : Numeral f b.toNat) =>
    h.not_mem rfl) (toList_ne_nil a) (P := fun _ => True)
  simpa only [and_true, IsQuad] using hfields

theorem signedQuad_iff {s : List Char} :
    SignedQuad s ↔ ∃ a : Octets, List.Forall₂ SignedField (s.splitOn '.') a.toList ∧
      ∃ f ∈ s.splitOn '.', f.head? = some '+' := by
  rw [SignedQuad, exists_comm]
  exact exists_congr fun a => exists_fields_iff (fun f b h => SignedField.dot_not_mem h)
    (toList_ne_nil a)

theorem foldlM_parseIpv4Field {fields : List (List Char)} {out res : List UInt8}
    (hout : out.length ≤ 4) :
    fields.foldlM parseIpv4Field out = some res ↔
      res.length ≤ 4 ∧ ∃ bs, res = out ++ bs ∧ List.Forall₂ SignedField fields bs := by
  induction fields generalizing out with
  | nil =>
    simp only [List.foldlM_nil, Option.pure_def, Option.some.injEq, List.forall₂_nil_left_iff]
    constructor
    · rintro rfl
      exact ⟨hout, [], (List.append_nil _).symm, rfl⟩
    · rintro ⟨-, bs, rfl, rfl⟩
      exact (List.append_nil _).symm
  | cons f fields ih =>
    rw [List.foldlM_cons]
    constructor
    · intro h
      obtain ⟨out', hfield, hrest⟩ := Option.bind_eq_some_iff.mp h
      rw [parseIpv4Field] at hfield
      split_ifs at hfield with hfull
      cases hb : parseU8 f with
      | none => simp only [hb, reduceCtorEq] at hfield
      | some b =>
        simp only [hb, Option.some.injEq] at hfield
        subst hfield
        obtain ⟨hlen, bs, hres, hbs⟩ :=
          (ih (by rw [List.length_append]; exact Nat.not_le.mp hfull)).mp hrest
        exact ⟨hlen, b :: bs, by rw [hres, List.append_assoc]; rfl,
          .cons (parseU8_eq_some_iff.mp hb) hbs⟩
    · rintro ⟨hlen, bs', rfl, hbs⟩
      obtain ⟨b, bs, hb, hrest, rfl⟩ := List.forall₂_cons_left_iff.mp hbs
      rw [List.length_append, List.length_cons] at hlen
      have hfield : parseIpv4Field out f = some (out ++ [b]) := by
        simp only [parseIpv4Field, if_neg (show ¬ out.length ≥ 4 by omega),
          parseU8_eq_some_iff.mpr hb]
      refine Option.bind_eq_some_iff.mpr ⟨out ++ [b], hfield, ?_⟩
      apply (ih (by rw [List.length_append, List.length_singleton]; omega)).mpr
      refine ⟨?_, bs, by rw [List.append_assoc]; rfl, hrest⟩
      rw [List.length_append, List.length_cons]
      omega

theorem parseIpv4_eq_some_iff {s : List Char} {a : Octets} :
    parseIpv4 s = some a ↔ List.Forall₂ SignedField (s.splitOn '.') a.toList := by
  have hfold : ∀ res, (s.splitOn '.').foldlM parseIpv4Field [] = some res ↔
      res.length ≤ 4 ∧ List.Forall₂ SignedField (s.splitOn '.') res := by
    intro res
    have hstart : ([] : List UInt8).length ≤ 4 := Nat.zero_le 4
    rw [foldlM_parseIpv4Field hstart]
    simp only [List.nil_append, exists_eq_left']
  rw [parseIpv4]
  constructor
  · intro h
    cases hres : (s.splitOn '.').foldlM parseIpv4Field [] with
    | none => simp only [hres, reduceCtorEq] at h
    | some res =>
      simp only [hres] at h
      split_ifs at h with hlen
      rw [← Option.some.inj h]
      exact ((hfold res).mp hres).2
  · intro h
    have hlen := a.length_toList
    simp only [(hfold a.toList).mpr ⟨hlen.le, h⟩, dif_pos hlen]
    exact congrArg some (Vector.toList_inj.mp rfl)

theorem signedField_of_no_plus {f : List Char} {b : UInt8} (h : SignedField f b)
    (hplus : f.head? ≠ some '+') : Numeral f b.toNat := by
  rcases h with hnum | ⟨digits, rfl, -⟩
  · exact hnum
  · exact absurd rfl hplus

/-- `parse_ipv4` is exact on every text but the quads with a plus sign. -/
theorem parseIpv4_exact_iff (s : List Char) : ParsesQuad s ↔ ¬ SignedQuad s := by
  rw [signedQuad_iff]
  constructor
  · rintro ⟨hexact, -⟩ ⟨a, hsigned, f, hf, hplus⟩
    have hquad := isQuad_iff.mp ((hexact a).mp (parseIpv4_eq_some_iff.mpr hsigned))
    obtain ⟨i, hi, rfl⟩ := List.getElem_of_mem hf
    have hnum : Numeral (s.splitOn '.')[i] _ := hquad.get hi (hquad.length_eq ▸ hi)
    exact hnum.not_mem rfl (List.mem_of_head? hplus)
  · intro hno
    have hexact : ∀ a, parseIpv4 s = some a ↔ IsQuad s a := by
      intro a
      rw [parseIpv4_eq_some_iff, isQuad_iff]
      constructor
      · intro hsigned
        have hplus : ∀ f ∈ s.splitOn '.', f.head? ≠ some '+' :=
          fun f hf hhead => hno ⟨a, hsigned, f, hf, hhead⟩
        have hboth := (List.forall₂_and_left _ _).mpr ⟨hplus, hsigned⟩
        exact hboth.imp fun f b h => signedField_of_no_plus h.2 h.1
      · exact fun hquad => hquad.imp fun f b h => Or.inl h
    refine ⟨hexact, fun hnone => ?_⟩
    cases hparse : parseIpv4 s with
    | none => rfl
    | some a => exact absurd ⟨a, (hexact a).mp hparse⟩ hnone

theorem parseIpv4_plus_sign :
    parseIpv4 "+1.2.3.4".toList = some #v[1, 2, 3, 4] ∧ ¬ IsQuad "+1.2.3.4".toList #v[1, 2, 3, 4] ∧
      ¬ ParsesQuad "+1.2.3.4".toList := by
  have hparse : parseIpv4 "+1.2.3.4".toList = some #v[1, 2, 3, 4] := by decide +kernel
  have hno : ¬ IsQuad "+1.2.3.4".toList #v[1, 2, 3, 4] := by
    intro hquad
    have hfields : "+1.2.3.4".toList.splitOn '.' = [['+', '1'], ['2'], ['3'], ['4']] := by
      decide +kernel
    rw [isQuad_iff, hfields] at hquad
    obtain ⟨b, bs, hnum, -, -⟩ := List.forall₂_cons_left_iff.mp hquad
    exact hnum.not_mem (c := '+') rfl List.mem_cons_self
  exact ⟨hparse, hno, fun hexact => hno ((hexact.1 _).mp hparse)⟩

end RustyLibc.Dns
