import Mathlib.Data.List.Induction

/-!
# Text as `str` has it

A text is the list of its characters, and `utf8` its bytes. `fromUtf8` accepts
exactly the bytes of a text, and a text that is cut between two characters is cut
in its bytes at the same place. `lines`, `trim`, `stripPrefix` and `parseU8` are
the functions of those names in Rust's library: a line ends in a line feed or a
carriage return and a line feed, white space is the Unicode property of that
name, and a number may carry a plus sign. The line terminator belongs to its
line, so a text that is cut behind one has the lines of its parts.
-/

namespace RustyLibc.Text

def utf8 (text : List Char) : List UInt8 := text.flatMap String.utf8EncodeChar

/-- `core::str::from_utf8` -/
def fromUtf8 (bytes : List UInt8) : Option (List Char) :=
  bytes.toByteArray.utf8Decode?.map Array.toList

@[simp] theorem utf8_append (a b : List Char) : utf8 (a ++ b) = utf8 a ++ utf8 b :=
  List.flatMap_append

theorem toByteArray_utf8 (text : List Char) : (utf8 text).toByteArray = text.utf8Encode := rfl

theorem fromUtf8_utf8 (text : List Char) : fromUtf8 (utf8 text) = some text := by
  rw [fromUtf8, toByteArray_utf8, List.utf8Decode?_utf8Encode]
  rfl

theorem utf8_injective {a b : List Char} (h : utf8 a = utf8 b) : a = b := by
  have hdecode := congrArg fromUtf8 h
  rw [fromUtf8_utf8, fromUtf8_utf8] at hdecode
  exact Option.some.inj hdecode

theorem utf8_of_fromUtf8 {bytes : List UInt8} {text : List Char} (h : fromUtf8 bytes = some text) :
    utf8 text = bytes := by
  obtain ⟨chars, hchars, rfl⟩ := Option.map_eq_some_iff.mp h
  have hsome : bytes.toByteArray.utf8Decode?.isSome := by
    rw [hchars]
    rfl
  obtain ⟨l, hl⟩ := ByteArray.isSome_utf8Decode?_iff.mp hsome
  rw [hl, List.utf8Decode?_utf8Encode] at hchars
  obtain rfl := Option.some.inj hchars
  rw [← List.toByteArray_inj, toByteArray_utf8, hl]

theorem prefix_of_utf8_prefix {a b : List Char} (h : utf8 a <+: utf8 b) : a <+: b := by
  obtain ⟨rest, hrest⟩ := h
  apply List.isPrefix_of_utf8Encode_append_eq_utf8Encode rest.toByteArray
  rw [← toByteArray_utf8, ← toByteArray_utf8, ← hrest, List.toByteArray_append]

theorem fromUtf8_take {text front : List Char} {n : ℕ} :
    fromUtf8 ((utf8 text).take n) = some front ↔
      ∃ back, text = front ++ back ∧ utf8 front = (utf8 text).take n := by
  constructor
  · intro h
    have hfront := utf8_of_fromUtf8 h
    obtain ⟨back, hback⟩ := prefix_of_utf8_prefix (hfront ▸ List.take_prefix n (utf8 text))
    exact ⟨back, hback.symm, hfront⟩
  · intro h
    obtain ⟨back, -, hfront⟩ := h
    rw [← hfront, fromUtf8_utf8]

def lineFeed : Char := '\n'
def carriageReturn : Char := '\r'

/-- `split_inclusive`: every piece but the last ends in the separator. -/
def splitInclusive (sep : Char) : List Char → List (List Char)
  | [] => []
  | c :: cs =>
    if c = sep then [c] :: splitInclusive sep cs
    else match splitInclusive sep cs with
      | [] => [[c]]
      | piece :: pieces => (c :: piece) :: pieces

def stripSuffix (c : Char) (s : List Char) : Option (List Char) :=
  if s.getLast? = some c then some s.dropLast else none

def withoutTerminator (piece : List Char) : List Char :=
  match stripSuffix lineFeed piece with
  | none => piece
  | some line => (stripSuffix carriageReturn line).getD line

def lines (text : List Char) : List (List Char) :=
  (splitInclusive lineFeed text).map withoutTerminator

theorem splitInclusive_of_not_mem {sep : Char} {s : List Char} (hne : s ≠ []) (h : sep ∉ s) :
    splitInclusive sep s = [s] := by
  induction s with
  | nil => exact absurd rfl hne
  | cons c cs ih =>
    have hc : c ≠ sep := fun heq => h (heq ▸ List.mem_cons_self)
    have hcs : sep ∉ cs := fun hmem => h (List.mem_cons_of_mem _ hmem)
    rw [splitInclusive, if_neg hc]
    cases cs with
    | nil => rfl
    | cons d ds => rw [ih (List.cons_ne_nil _ _) hcs]

theorem splitInclusive_append_sep (sep : Char) (s rest : List Char) :
    splitInclusive sep (s ++ sep :: rest) =
      splitInclusive sep (s ++ [sep]) ++ splitInclusive sep rest := by
  induction s with
  | nil => simp [splitInclusive]
  | cons c cs ih =>
    rw [List.cons_append, List.cons_append, splitInclusive, splitInclusive, ih]
    by_cases hc : c = sep
    · rw [if_pos hc, if_pos hc, List.cons_append]
    · rw [if_neg hc, if_neg hc]
      have hpieces : splitInclusive sep (cs ++ [sep]) ≠ [] := by
        cases cs with
        | nil => simp [splitInclusive]
        | cons d ds =>
          rw [List.cons_append, splitInclusive]
          split_ifs
          · exact List.cons_ne_nil _ _
          · split
            · exact List.cons_ne_nil _ _
            · exact List.cons_ne_nil _ _
      obtain ⟨piece, pieces, hsplit⟩ := List.exists_cons_of_ne_nil hpieces
      rw [hsplit]
      rfl

def WholeLines (text : List Char) : Prop := text = [] ∨ ∃ s, text = s ++ [lineFeed]

theorem lines_append {done : List Char} (h : WholeLines done) (rest : List Char) :
    lines (done ++ rest) = lines done ++ lines rest := by
  rcases h with rfl | ⟨s, rfl⟩
  · rfl
  · rw [lines, List.append_assoc, List.singleton_append, splitInclusive_append_sep, List.map_append]
    rfl

theorem lines_of_not_mem {piece : List Char} (hne : piece ≠ []) (h : lineFeed ∉ piece) :
    lines piece = [piece] := by
  have hlast : piece.getLast? ≠ some lineFeed := fun hl => h (List.mem_of_getLast? hl)
  rw [lines, splitInclusive_of_not_mem hne h, List.map_singleton, withoutTerminator, stripSuffix,
    if_neg hlast]

theorem exists_wholeLines (text : List Char) :
    ∃ done piece, text = done ++ piece ∧ WholeLines done ∧ lineFeed ∉ piece := by
  induction text using List.reverseRecOn with
  | nil => exact ⟨[], [], rfl, Or.inl rfl, List.not_mem_nil⟩
  | append_singleton s c ih =>
    by_cases hc : c = lineFeed
    · exact ⟨s ++ [c], [], by simp, Or.inr ⟨s, by rw [hc]⟩, List.not_mem_nil⟩
    · obtain ⟨done, piece, rfl, hdone, hpiece⟩ := ih
      refine ⟨done, piece ++ [c], by simp, hdone, ?_⟩
      intro hmem
      rcases List.mem_append.mp hmem with hp | hlast
      · exact hpiece hp
      · exact hc (List.mem_singleton.mp hlast).symm

/-- `char::is_whitespace`: the characters with the property `White_Space`. -/
def isWhitespace (c : Char) : Bool :=
  let n := c.toNat
  (0x09 ≤ n ∧ n ≤ 0x0D) ∨ n = 0x20 ∨ n = 0x85 ∨ n = 0xA0 ∨ n = 0x1680 ∨
    (0x2000 ≤ n ∧ n ≤ 0x200A) ∨ n = 0x2028 ∨ n = 0x2029 ∨ n = 0x202F ∨ n = 0x205F ∨ n = 0x3000

def trim (s : List Char) : List Char :=
  ((s.dropWhile isWhitespace).reverse.dropWhile isWhitespace).reverse

def stripPrefix : List Char → List Char → Option (List Char)
  | [], s => some s
  | _ :: _, [] => none
  | p :: ps, c :: cs => if p = c then stripPrefix ps cs else none

def digit (c : Char) : Option ℕ :=
  if '0' ≤ c ∧ c ≤ '9' then some (c.toNat - '0'.toNat) else none

/-- One digit more; `none` for another character or a value beyond `u8`. -/
def pushDigit (value : ℕ) (c : Char) : Option ℕ :=
  match digit c with
  | none => none
  | some d => if value * 10 + d ≤ 255 then some (value * 10 + d) else none

/-- `u8::from_str`: decimal digits, with a plus sign in front if there are any. -/
def parseU8 (s : List Char) : Option UInt8 :=
  match s with
  | [] => none
  | ['+'] => none
  | ['-'] => none
  | '+' :: digits => (digits.foldlM pushDigit 0).map UInt8.ofNat
  | digits => (digits.foldlM pushDigit 0).map UInt8.ofNat

example : parseU8 ['+', '0', '7'] = some 7 ∧ parseU8 ['2', '5', '6'] = none ∧
    parseU8 ['-', '1'] = none := by decide

def Numeral (s : List Char) (n : ℕ) : Prop :=
  s ≠ [] ∧ (∀ c ∈ s, c.isDigit) ∧ Nat.ofDigitChars 10 s 0 = n

theorem Numeral.not_mem {s : List Char} {n : ℕ} (h : Numeral s n) {c : Char}
    (hc : c.isDigit = false) : c ∉ s := by
  intro hmem
  have hdigit := h.2.1 c hmem
  rw [hc] at hdigit
  cases hdigit

theorem digit_eq (c : Char) : digit c = if c.isDigit then some (c.toNat - '0'.toNat) else none := by
  have hdigit : c.isDigit = true ↔ '0' ≤ c ∧ c ≤ '9' := by
    rw [Char.isDigit, Bool.and_eq_true, decide_eq_true_iff, decide_eq_true_iff]
    exact Iff.rfl
  rw [digit]
  by_cases h : '0' ≤ c ∧ c ≤ '9'
  · rw [if_pos h, if_pos (hdigit.mpr h)]
  · rw [if_neg h, if_neg (mt hdigit.mp h)]

theorem le_ofDigitChars (s : List Char) (v : ℕ) : v ≤ Nat.ofDigitChars 10 s v := by
  induction s generalizing v with
  | nil => exact Nat.le_refl v
  | cons c cs ih =>
    have hrest := ih (10 * v + (c.toNat - '0'.toNat))
    rw [Nat.ofDigitChars_cons]
    omega

theorem foldlM_pushDigit_eq_some_iff {s : List Char} {v n : ℕ} (hv : v ≤ 255) :
    s.foldlM pushDigit v = some n ↔
      (∀ c ∈ s, c.isDigit) ∧ Nat.ofDigitChars 10 s v = n ∧ n ≤ 255 := by
  induction s generalizing v with
  | nil =>
    simp only [List.foldlM_nil, Option.pure_def, Option.some.injEq, Nat.ofDigitChars_nil]
    constructor
    · rintro rfl
      exact ⟨fun c hc => absurd hc List.not_mem_nil, rfl, hv⟩
    · exact fun h => h.2.1
  | cons c cs ih =>
    rw [List.foldlM_cons, List.forall_mem_cons, Nat.ofDigitChars_cons, Nat.mul_comm 10 v]
    have hgrow := le_ofDigitChars cs (v * 10 + (c.toNat - '0'.toNat))
    by_cases hc : c.isDigit
    · by_cases hfit : v * 10 + (c.toNat - '0'.toNat) ≤ 255
      · have hpush : pushDigit v c = some (v * 10 + (c.toNat - '0'.toNat)) := by
          simp only [pushDigit, digit_eq, if_pos hc, if_pos hfit]
        rw [hpush]
        refine (ih hfit).trans ?_
        simp only [hc, true_and]
      · -- the value only grows, so no further digit brings it back below 256
        have hpush : pushDigit v c = none := by
          simp only [pushDigit, digit_eq, if_pos hc, if_neg hfit]
        rw [hpush]
        constructor
        · exact fun h => absurd h (by simp)
        · intro h
          omega
    · have hpush : pushDigit v c = none := by simp only [pushDigit, digit_eq, if_neg hc]
      rw [hpush]
      constructor
      · exact fun h => absurd h (by simp)
      · exact fun h => absurd h.1.1 hc

theorem map_foldlM_pushDigit {s : List Char} (hne : s ≠ []) {b : UInt8} :
    (s.foldlM pushDigit 0).map UInt8.ofNat = some b ↔ Numeral s b.toNat := by
  have hb := b.toNat_lt
  rw [Option.map_eq_some_iff]
  constructor
  · rintro ⟨n, hn, rfl⟩
    obtain ⟨hdigits, hval, hle⟩ := (foldlM_pushDigit_eq_some_iff (Nat.zero_le _)).mp hn
    refine ⟨hne, hdigits, hval.trans ?_⟩
    rw [UInt8.toNat_ofNat', Nat.mod_eq_of_lt (by omega)]
  · rintro ⟨-, hdigits, hval⟩
    exact ⟨b.toNat, (foldlM_pushDigit_eq_some_iff (Nat.zero_le _)).mpr ⟨hdigits, hval, by omega⟩,
      UInt8.ofNat_toNat⟩

theorem parseU8_plus {s : List Char} (hne : s ≠ []) :
    parseU8 ('+' :: s) = (s.foldlM pushDigit 0).map UInt8.ofNat := by
  cases s with
  | nil => exact absurd rfl hne
  | cons c cs => rfl

theorem parseU8_unsigned {c : Char} (hc : c ≠ '+') (cs : List Char) :
    parseU8 (c :: cs) = ((c :: cs).foldlM pushDigit 0).map UInt8.ofNat := by
  by_cases hminus : c = '-' ∧ cs = []
  · obtain ⟨rfl, rfl⟩ := hminus
    rfl
  · rw [parseU8.eq_def]
    split <;> simp_all

theorem parseU8_eq_some_iff {s : List Char} {b : UInt8} :
    parseU8 s = some b ↔ Numeral s b.toNat ∨ ∃ digits, s = '+' :: digits ∧ Numeral digits b.toNat := by
  cases s with
  | nil =>
    constructor
    · exact fun h => absurd h (by simp [parseU8])
    · rintro (⟨hne, -, -⟩ | ⟨digits, hs, -⟩)
      · exact absurd rfl hne
      · cases hs
  | cons c cs =>
    by_cases hc : c = '+'
    · subst hc
      have hplus : ¬ Numeral ('+' :: cs) b.toNat :=
        fun hnum => hnum.not_mem (c := '+') rfl List.mem_cons_self
      rw [or_iff_right hplus]
      by_cases hcs : cs = []
      · subst hcs
        constructor
        · exact fun h => absurd h (by simp [parseU8])
        · rintro ⟨digits, hs, hnum⟩
          obtain rfl := (List.cons.inj hs).2
          exact absurd rfl hnum.1
      · rw [parseU8_plus hcs, map_foldlM_pushDigit hcs]
        constructor
        · exact fun h => ⟨cs, rfl, h⟩
        · rintro ⟨digits, hs, hnum⟩
          obtain rfl := (List.cons.inj hs).2
          exact hnum
    · rw [parseU8_unsigned hc, map_foldlM_pushDigit (List.cons_ne_nil _ _)]
      constructor
      · exact Or.inl
      · rintro (hnum | ⟨digits, hs, -⟩)
        · exact hnum
        · exact absurd (List.cons.inj hs).1 hc

end RustyLibc.Text
