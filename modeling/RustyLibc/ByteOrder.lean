import Mathlib.Data.Nat.Digits.Defs

/-!
# Fixed-width integers as byte strings

Little-endian values are digit expansions in base 256; big-endian and native
orders are reversals of them. Writing keeps the low bits that fit the width
and reading returns them, in either order.
-/

namespace RustyLibc.ByteOrder

inductive Endian where
  | little
  | big
  deriving DecidableEq, Repr

def leVal (bs : List UInt8) : ℕ := Nat.ofDigits 256 (bs.map UInt8.toNat)

def leBytes : ℕ → ℕ → List UInt8
  | 0, _ => []
  | w + 1, n => UInt8.ofNat n :: leBytes w (n / 256)

def beVal (bs : List UInt8) : ℕ := leVal bs.reverse
def beBytes (w n : ℕ) : List UInt8 := (leBytes w n).reverse

def neVal : Endian → List UInt8 → ℕ
  | .little => leVal
  | .big => beVal

def neBytes : Endian → ℕ → ℕ → List UInt8
  | .little => leBytes
  | .big => beBytes

@[simp] theorem leVal_nil : leVal [] = 0 := rfl

theorem leVal_cons (b : UInt8) (bs : List UInt8) :
    leVal (b :: bs) = b.toNat + 256 * leVal bs := by
  simp [leVal, Nat.ofDigits_cons]

@[simp] theorem length_leBytes (w n : ℕ) : (leBytes w n).length = w := by
  induction w generalizing n with
  | zero => rfl
  | succ w ih => simp [leBytes, ih]

@[simp] theorem length_beBytes (w n : ℕ) : (beBytes w n).length = w := by simp [beBytes]

@[simp] theorem length_neBytes (e : Endian) (w n : ℕ) : (neBytes e w n).length = w := by
  cases e <;> simp [neBytes]

theorem leVal_leBytes (w n : ℕ) : leVal (leBytes w n) = n % 256 ^ w := by
  induction w generalizing n with
  | zero => simp [leBytes, Nat.mod_one]
  | succ w ih =>
    have hb : (UInt8.ofNat n).toNat = n % 256 := by simp
    rw [leBytes, leVal_cons, ih, hb, Nat.pow_succ', Nat.mod_mul]

theorem beVal_beBytes (w n : ℕ) : beVal (beBytes w n) = n % 256 ^ w := by
  simp [beVal, beBytes, leVal_leBytes]

theorem neVal_neBytes (e : Endian) (w n : ℕ) : neVal e (neBytes e w n) = n % 256 ^ w := by
  cases e with
  | little => exact leVal_leBytes w n
  | big => exact beVal_beBytes w n

theorem neVal_neBytes_of_lt (e : Endian) {w n : ℕ} (h : n < 256 ^ w) :
    neVal e (neBytes e w n) = n := by
  rw [neVal_neBytes, Nat.mod_eq_of_lt h]

def u16FromBe (hi lo : UInt8) : UInt16 := UInt16.ofNat (beVal [hi, lo])

def u16ToBe (x : UInt16) : List UInt8 := beBytes 2 x.toNat

@[simp] theorem length_u16ToBe (x : UInt16) : (u16ToBe x).length = 2 := length_beBytes 2 _

theorem u16ToBe_eq (x : UInt16) :
    ∃ hi lo, u16ToBe x = [hi, lo] ∧ u16FromBe hi lo = x := by
  refine ⟨UInt8.ofNat (x.toNat / 256), UInt8.ofNat x.toNat, rfl, ?_⟩
  have hval : beVal [UInt8.ofNat (x.toNat / 256), UInt8.ofNat x.toNat] = x.toNat % 256 ^ 2 :=
    beVal_beBytes 2 x.toNat
  have hlt : x.toNat < 256 ^ 2 := x.toNat_lt
  rw [u16FromBe, hval, Nat.mod_eq_of_lt hlt, UInt16.ofNat_toNat]

end RustyLibc.ByteOrder
