import RustyLibc.Outcome
import RustyLibc.TextLines
import Mathlib.Algebra.Ring.Nat

/-!
# Numbers written in decimal

`writeDigits` is the loop that code without a formatter uses: it stores the last
digit first, so that the digits come out back to front and the caller turns them
round. A number is written out as `decimal n`, the bytes of its digits, and an
integer as `decimalInt z`, which is one-to-one. `terminate` makes a C string of
what has been written: it stores the NUL, and the bytes before it are the string
if they have no NUL of their own.
-/

namespace RustyLibc.Text
open Outcome

variable {ε : Type}

def decimal (n : ℕ) : List UInt8 := utf8 (Nat.toDigits 10 n)

def decimalInt (z : ℤ) : List UInt8 := utf8 (toString z).toList

def digitStep (st : Slice × ℕ × ℕ) : Outcome ε (Pass (Slice × ℕ × ℕ) (Slice × ℕ)) := do
  let out ← st.1.store st.2.1 (48 + UInt8.ofNat (st.2.2 % 10))
  let pos ← uadd st.2.1 1
  let n := st.2.2 / 10
  if n = 0 then pure (.done (out, pos)) else pure (.next (out, pos, n))

/-- Every pass stores a byte, so a buffer that is large enough bounds the
passes. -/
def writeDigits (out : Slice) (pos n : ℕ) : Outcome ε (Slice × ℕ) :=
  loop digitStep (out.len + 1) (out, pos, n)

/-- `CStr::from_bytes_with_nul`, as the bytes before the NUL. -/
def fromBytesWithNul (bs : List UInt8) : Option (List UInt8) :=
  match bs.idxOf? 0 with
  | none => none
  | some p => if p + 1 = bs.length then some (bs.take p) else none

def unwrap {α : Type} : Option α → Outcome ε α
  | some a => .ok a
  | none => .panic

/-- `out[pos] = 0; CStr::from_bytes_with_nul(&out[..=pos]).unwrap()` -/
def terminate (out : Slice) (pos : ℕ) : Outcome ε (List UInt8) := do
  let out ← out.store pos 0
  let stop ← uadd pos 1
  let bytes ← out.range 0 stop
  unwrap (fromBytesWithNul bytes)

theorem utf8_digitChar {d : ℕ} (h : d < 10) : utf8 [Nat.digitChar d] = [48 + UInt8.ofNat d] := by
  have hall : ∀ k : Fin 10, utf8 [Nat.digitChar k.val] = [48 + UInt8.ofNat k.val] := by decide
  exact hall ⟨d, h⟩

theorem decimal_eq (n : ℕ) :
    decimal n = (if n / 10 = 0 then [] else decimal (n / 10)) ++ [48 + UInt8.ofNat (n % 10)] := by
  rw [decimal, Nat.toDigits_eq_if (by omega)]
  by_cases h : n < 10
  · rw [if_pos h, if_pos (by omega), utf8_digitChar h, Nat.mod_eq_of_lt h]
    rfl
  · rw [if_neg h, if_neg (by omega), utf8_append, utf8_digitChar (by omega)]
    rfl

theorem length_decimal_le {n k : ℕ} (hk : 1 ≤ k) (h : n < 10 ^ k) : (decimal n).length ≤ k := by
  induction k generalizing n with
  | zero => omega
  | succ k ih =>
    rw [decimal_eq, List.length_append, List.length_singleton]
    by_cases hlast : n / 10 = 0
    · rw [if_pos hlast, List.length_nil]
      omega
    · rw [if_neg hlast]
      have hrest : n / 10 < 10 ^ k := Nat.div_lt_of_lt_mul (by rwa [Nat.pow_succ'] at h)
      have hk' : 1 ≤ k := by
        by_contra hzero
        rw [show k = 0 by omega] at hrest
        omega
      have hlen := ih hk' hrest
      omega

theorem digit_of_mem_decimal {n : ℕ} {b : UInt8} (h : b ∈ decimal n) : 48 ≤ b.toNat := by
  induction n using Nat.strong_induction_on with
  | _ n ih =>
    rw [decimal_eq, List.mem_append, List.mem_singleton] at h
    rcases h with hfront | hlast
    · by_cases hzero : n / 10 = 0
      · rw [if_pos hzero] at hfront
        exact absurd hfront List.not_mem_nil
      · rw [if_neg hzero] at hfront
        exact ih (n / 10) (by omega) hfront
    · have hdigit : ∀ k : Fin 10, 48 ≤ (48 + UInt8.ofNat k.val : UInt8).toNat := by decide
      rw [hlast]
      exact hdigit ⟨n % 10, by omega⟩

theorem decimal_injective {m n : ℕ} (h : decimal m = decimal n) : m = n := by
  have hvalue := congrArg (fun digits => Nat.ofDigitChars 10 digits 0) (utf8_injective h)
  simpa using hvalue

theorem decimalInt_of_nonneg {z : ℤ} (h : 0 ≤ z) : decimalInt z = decimal z.natAbs := by
  have habs : z.toNat = z.natAbs := by omega
  rw [decimalInt, decimal, Int.toString_eq_repr, Int.repr_eq_if, if_pos h, Nat.toList_repr, habs]

theorem decimalInt_of_neg {z : ℤ} (h : z < 0) : decimalInt z = 45 :: decimal z.natAbs := by
  have habs : (-z).toNat = z.natAbs := by omega
  have hsign : ("-" ++ z.natAbs.repr).toList = ['-'] ++ Nat.toDigits 10 z.natAbs := by
    rw [String.toList_append, Nat.toList_repr]
    rfl
  rw [decimalInt, decimal, Int.toString_eq_repr, Int.repr_eq_if, if_neg (by omega), habs, hsign,
    utf8_append]
  rfl

theorem decimalInt_injective {x y : ℤ} (h : decimalInt x = decimalInt y) : x = y := by
  -- a minus sign is not a digit, so the sign and the digits can be read off
  have hminus : ∀ n, 45 ∉ decimal n := fun n hmem => absurd (digit_of_mem_decimal hmem) (by decide)
  rcases Int.lt_or_le x 0 with hx | hx
  · rcases Int.lt_or_le y 0 with hy | hy
    · rw [decimalInt_of_neg hx, decimalInt_of_neg hy] at h
      have habs := decimal_injective (List.cons.inj h).2
      omega
    · rw [decimalInt_of_neg hx, decimalInt_of_nonneg hy] at h
      exact absurd (h ▸ List.mem_cons_self) (hminus y.natAbs)
  · rcases Int.lt_or_le y 0 with hy | hy
    · rw [decimalInt_of_nonneg hx, decimalInt_of_neg hy] at h
      exact absurd (h.symm ▸ List.mem_cons_self) (hminus x.natAbs)
    · rw [decimalInt_of_nonneg hx, decimalInt_of_nonneg hy] at h
      have habs := decimal_injective h
      omega

theorem digitStep_front {s : Slice} {done : List UInt8} (h : done.length < s.len) (n : ℕ) :
    digitStep (ε := ε) (s.patch 0 done, done.length, n) =
      let next := done ++ [48 + UInt8.ofNat (n % 10)]
      if n / 10 = 0 then .ok (.done (s.patch 0 next, next.length))
      else .ok (.next (s.patch 0 next, next.length, n / 10)) := by
  have hlen := s.len_lt
  have hnext : (done ++ [48 + UInt8.ofNat (n % 10)]).length = done.length + 1 := by simp
  simp only [digitStep, Slice.store_front h, ok_bind, pure_eq_ok, uadd_eq_ok (ε := ε)
    (show done.length + 1 < 2 ^ 64 by omega), hnext]

theorem loop_digitStep {s : Slice} {done : List UInt8} {n fuel : ℕ}
    (hfits : done.length + (decimal n).length ≤ s.len) (hfuel : (decimal n).length ≤ fuel) :
    loop (digitStep (ε := ε)) fuel (s.patch 0 done, done.length, n) =
      .ok (s.patch 0 (done ++ (decimal n).reverse), (done ++ (decimal n).reverse).length) := by
  induction fuel generalizing done n with
  | zero =>
    rw [decimal_eq, List.length_append, List.length_singleton] at hfuel
    omega
  | succ fuel ih =>
    have hdigits := decimal_eq n
    rw [hdigits, List.length_append, List.length_singleton] at hfits hfuel
    rw [loop_succ, digitStep_front (by omega)]
    dsimp only
    by_cases hlast : n / 10 = 0
    · rw [if_pos hlast] at hdigits ⊢
      rw [hdigits]
      rfl
    · rw [if_neg hlast] at hdigits hfits hfuel ⊢
      -- what is left to write are the digits in front of the one just stored
      have hrest : (decimal n).reverse =
          [48 + UInt8.ofNat (n % 10)] ++ (decimal (n / 10)).reverse := by
        rw [hdigits, List.reverse_append, List.reverse_singleton]
      rw [ok_bind, hrest, ← List.append_assoc]
      apply ih
      · rw [List.length_append, List.length_singleton]
        omega
      · omega

theorem writeDigits_front {s : Slice} {done : List UInt8} {n : ℕ}
    (h : done.length + (decimal n).length ≤ s.len) :
    writeDigits (ε := ε) (s.patch 0 done) done.length n =
      .ok (s.patch 0 (done ++ (decimal n).reverse), (done ++ (decimal n).reverse).length) := by
  rw [writeDigits, Slice.len_patch]
  apply loop_digitStep h
  omega

theorem fromBytesWithNul_snoc {path : List UInt8} (h : 0 ∉ path) :
    fromBytesWithNul (path ++ [0]) = some path := by
  have hidx : (path ++ [0]).idxOf? 0 = some path.length := by
    induction path with
    | nil => rfl
    | cons b path ih =>
      obtain ⟨hb, hpath⟩ := not_or.mp (mt List.mem_cons.mpr h)
      rw [List.cons_append, List.idxOf?_cons, if_neg (by simpa using Ne.symm hb), ih hpath]
      rfl
  simp [fromBytesWithNul, hidx]

theorem terminate_front {s : Slice} {text : List UInt8} (h : text.length < s.len) (hnul : 0 ∉ text) :
    terminate (ε := ε) (s.patch 0 text) text.length = .ok text := by
  have hlen := s.len_lt
  have hrange : ((s.patch 0 (text ++ [0])).range 0 (text ++ [0]).length :
      Outcome ε (List UInt8)) = .ok (text ++ [0]) :=
    Slice.range_front (by rw [List.length_append]; exact h)
  rw [List.length_append, List.length_singleton] at hrange
  rw [terminate, Slice.store_front h, ok_bind, uadd_eq_ok (by omega), ok_bind, hrange, ok_bind,
    fromBytesWithNul_snoc hnul]
  rfl

theorem nul_not_mem_decimal (n : ℕ) : 0 ∉ decimal n :=
  fun hmem => absurd (digit_of_mem_decimal hmem) (by decide)

end RustyLibc.Text
