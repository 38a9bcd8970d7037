import Mathlib.Algebra.Ring.Nat
import Mathlib.Order.Basic

/-!
# Outcomes of checked computations

A checked computation ends in a value, in a reported error, or in a panic.
Loops run under an explicit budget of iterations, and a loop that spends its
budget ends in `diverge`. A triple `Sat x P Q` excludes both `panic` and
`diverge`, so every triple below is a total-correctness statement: the budget
is shown sufficient by a decreasing variant, never assumed to be.

Nothing here mentions a particular program. Indices and lengths are natural
numbers; `index`, `range` and `rangeFrom` are `s[i]`, `s[a..b]` and `s[a..]`;
`uadd` is the addition of a 64-bit machine word that panics on
overflow, and a `Slice` carries the bound that every slice of bytes in a
64-bit address space has.
-/

namespace RustyLibc

inductive Outcome (ε α : Type) where
  | ok (value : α)
  | err (error : ε)
  | panic
  | diverge
  deriving DecidableEq, Repr

namespace Outcome

variable {ε α β σ : Type}

def bind : Outcome ε α → (α → Outcome ε β) → Outcome ε β
  | .ok a, f => f a
  | .err e, _ => .err e
  | .panic, _ => .panic
  | .diverge, _ => .diverge

def map (f : α → β) : Outcome ε α → Outcome ε β
  | .ok a => .ok (f a)
  | .err e => .err e
  | .panic => .panic
  | .diverge => .diverge

/-- A computation without errors of its own, among those that have some. -/
def ofNever : Outcome Empty α → Outcome ε α
  | .ok a => .ok a
  | .panic => .panic
  | .diverge => .diverge

instance : Monad (Outcome ε) where
  pure := .ok
  bind := bind

@[simp] theorem pure_eq_ok (a : α) : (pure a : Outcome ε α) = .ok a := rfl
@[simp] theorem ok_bind (a : α) (f : α → Outcome ε β) : ((.ok a : Outcome ε α) >>= f) = f a := rfl
@[simp] theorem err_bind (e : ε) (f : α → Outcome ε β) :
    ((.err e : Outcome ε α) >>= f) = .err e := rfl
@[simp] theorem panic_bind (f : α → Outcome ε β) : ((.panic : Outcome ε α) >>= f) = .panic := rfl
@[simp] theorem diverge_bind (f : α → Outcome ε β) :
    ((.diverge : Outcome ε α) >>= f) = .diverge := rfl
@[simp] theorem map_ok (f : α → β) (a : α) : (.ok a : Outcome ε α).map f = .ok (f a) := rfl
@[simp] theorem map_err (f : α → β) (e : ε) : (.err e : Outcome ε α).map f = .err e := rfl

theorem bind_eq_ok {x : Outcome ε α} {f : α → Outcome ε β} {b : β} :
    (x >>= f) = .ok b ↔ ∃ a, x = .ok a ∧ f a = .ok b := by
  cases x <;> simp

theorem map_eq_ok {x : Outcome ε α} {f : α → β} {b : β} :
    x.map f = .ok b ↔ ∃ a, x = .ok a ∧ f a = b := by
  cases x <;> simp [map]

theorem bind_congr {x y : Outcome ε α} {f g : α → Outcome ε β}
    (hx : x = y) (hf : ∀ a, y = .ok a → f a = g a) : (x >>= f) = (y >>= g) := by
  subst hx
  cases x with
  | ok a => exact hf a rfl
  | err e => rfl
  | panic => rfl
  | diverge => rfl

/-- Total correctness: `x` ends in a value satisfying `P` or in an error
satisfying `Q`, and neither panics nor diverges. -/
def Sat (x : Outcome ε α) (P : α → Prop) (Q : ε → Prop) : Prop :=
  match x with
  | .ok a => P a
  | .err e => Q e
  | .panic => False
  | .diverge => False

@[simp] theorem sat_ok {a : α} {P : α → Prop} {Q : ε → Prop} : Sat (.ok a) P Q ↔ P a := Iff.rfl
@[simp] theorem sat_err {e : ε} {P : α → Prop} {Q : ε → Prop} :
    Sat (.err e : Outcome ε α) P Q ↔ Q e := Iff.rfl

theorem Sat.bind {x : Outcome ε α} {f : α → Outcome ε β} {P : α → Prop} {R : β → Prop}
    {Q : ε → Prop} (hx : Sat x P Q) (hf : ∀ a, P a → Sat (f a) R Q) : Sat (x >>= f) R Q := by
  cases x with
  | ok a => exact hf a hx
  | err e => exact hx
  | panic => exact hx
  | diverge => exact hx

theorem Sat.imp {x : Outcome ε α} {P R : α → Prop} {Q S : ε → Prop} (hx : Sat x P Q)
    (hP : ∀ a, P a → R a) (hQ : ∀ e, Q e → S e) : Sat x R S := by
  cases x with
  | ok a => exact hP a hx
  | err e => exact hQ e hx
  | panic => exact hx
  | diverge => exact hx

theorem Sat.of_eq_ok {x : Outcome ε α} {P : α → Prop} {Q : ε → Prop} (hx : Sat x P Q) {a : α}
    (ha : x = .ok a) : P a := by
  subst ha
  exact hx

theorem Sat.ok_or_err {x : Outcome ε α} {P : α → Prop} {Q : ε → Prop} (hx : Sat x P Q) :
    (∃ a, x = .ok a ∧ P a) ∨ ∃ e, x = .err e ∧ Q e := by
  cases x with
  | ok a => exact Or.inl ⟨a, rfl, hx⟩
  | err e => exact Or.inr ⟨e, rfl, hx⟩
  | panic => exact hx.elim
  | diverge => exact hx.elim

def forN (body : σ → Outcome ε σ) : ℕ → σ → Outcome ε σ
  | 0, s => .ok s
  | n + 1, s => body s >>= forN body n

@[simp] theorem forN_zero (body : σ → Outcome ε σ) (s : σ) : forN body 0 s = .ok s := rfl
theorem forN_succ (body : σ → Outcome ε σ) (n : ℕ) (s : σ) :
    forN body (n + 1) s = body s >>= forN body n := rfl

theorem Sat.forN {body : σ → Outcome ε σ} {I : σ → Prop} {Q : ε → Prop}
    (hbody : ∀ s, I s → Sat (body s) I Q) (n : ℕ) {s : σ} (hs : I s) :
    Sat (forN body n s) I Q := by
  induction n generalizing s with
  | zero => exact hs
  | succ n ih => exact (hbody s hs).bind fun t ht => ih ht

/-- What one pass through the body of a `loop` does: go round again with the
next state, or leave the loop with a result. -/
inductive Pass (σ α : Type) where
  | next (state : σ)
  | done (value : α)
  deriving DecidableEq, Repr

def loop (body : σ → Outcome ε (Pass σ α)) : ℕ → σ → Outcome ε α
  | 0, _ => .diverge
  | fuel + 1, s => body s >>= fun
    | .next t => loop body fuel t
    | .done a => .ok a

theorem loop_succ (body : σ → Outcome ε (Pass σ α)) (fuel : ℕ) (s : σ) :
    loop body (fuel + 1) s = body s >>= fun
      | .next t => loop body fuel t
      | .done a => .ok a := rfl

/-- The loop rule with a variant: a body that keeps the invariant and lowers
the variant whenever it goes round again needs no more passes than the variant
allows. -/
theorem Sat.loop {body : σ → Outcome ε (Pass σ α)} {I : σ → Prop} {P : α → Prop}
    {Q : ε → Prop} (μ : σ → ℕ)
    (hbody : ∀ s, I s → Sat (body s)
      (fun | .next t => I t ∧ μ t < μ s | .done a => P a) Q)
    {fuel : ℕ} {s : σ} (hs : I s) (hfuel : μ s < fuel) : Sat (loop body fuel s) P Q := by
  induction fuel generalizing s with
  | zero => exact absurd hfuel (Nat.not_lt_zero _)
  | succ fuel ih =>
    rw [loop_succ]
    refine (hbody s hs).bind fun r hr => ?_
    cases r with
    | next t =>
      have hlt : μ t < μ s := hr.2
      exact ih hr.1 (by omega)
    | done a => exact hr

theorem loop_budget {body : σ → Outcome ε (Pass σ α)} (μ : σ → ℕ)
    (hbody : ∀ s t, body s = .ok (.next t) → μ t < μ s) {fuel fuel' : ℕ} {s : σ}
    (hfuel : μ s < fuel) (hfuel' : μ s < fuel') : loop body fuel s = loop body fuel' s := by
  induction fuel generalizing fuel' s with
  | zero => exact absurd hfuel (Nat.not_lt_zero _)
  | succ fuel ih =>
    obtain ⟨fuel', rfl⟩ : ∃ m, fuel' = m + 1 := ⟨fuel' - 1, by omega⟩
    rw [loop_succ, loop_succ]
    refine bind_congr rfl fun r hr => ?_
    cases r with
    | next t =>
      have hlt := hbody s t hr
      exact ih (by omega) (by omega)
    | done a => rfl

/-- 64-bit `usize` addition; an overflow panics. -/
def uadd (a b : ℕ) : Outcome ε ℕ := if a + b < 2 ^ 64 then .ok (a + b) else .panic

theorem uadd_eq_ok {a b : ℕ} (h : a + b < 2 ^ 64) : (uadd a b : Outcome ε ℕ) = .ok (a + b) :=
  if_pos h

theorem eq_add_of_uadd {a b c : ℕ} (h : (uadd a b : Outcome ε ℕ) = .ok c) : c = a + b := by
  unfold uadd at h
  split_ifs at h
  exact (Outcome.ok.inj h).symm

end Outcome

/-- A borrowed run of bytes. Its length stays below `isize::MAX + 1`. -/
structure Slice where
  bytes : List UInt8
  fits : bytes.length < 2 ^ 63

namespace Slice

variable {ε : Type}

def len (s : Slice) : ℕ := s.bytes.length

def index (s : Slice) (i : ℕ) : Outcome ε UInt8 :=
  match s.bytes[i]? with
  | some b => .ok b
  | none => .panic

def range (s : Slice) (a b : ℕ) : Outcome ε (List UInt8) :=
  if a ≤ b ∧ b ≤ s.len then .ok ((s.bytes.drop a).take (b - a)) else .panic

def rangeFrom (s : Slice) (a : ℕ) : Outcome ε Slice :=
  if a ≤ s.len then
    .ok ⟨s.bytes.drop a, (List.length_drop ▸ Nat.sub_le _ _).trans_lt s.fits⟩
  else .panic

/-- `s[..n]` for `n ≤ s.len`, the whole of `s` otherwise. -/
def upTo (s : Slice) (n : ℕ) : Slice :=
  ⟨s.bytes.take n, (List.length_take_le' n s.bytes).trans_lt s.fits⟩

/-- `s` after `bs` has been copied into it from `pos` on; what does not fit is
dropped. -/
def patch (s : Slice) (pos : ℕ) (bs : List UInt8) : Slice :=
  ⟨s.bytes.take pos ++ (bs.take (s.len - pos) ++ s.bytes.drop (pos + bs.length)), by
    have hfits := s.fits
    simp only [len, List.length_append, List.length_take, List.length_drop]
    omega⟩

theorem len_lt (s : Slice) : s.len < 2 ^ 63 := s.fits

theorem index_of_getElem? {s : Slice} {i : ℕ} {b : UInt8} (h : s.bytes[i]? = some b) :
    (s.index i : Outcome ε UInt8) = .ok b := by
  simp [index, h]

theorem index_of_lt {s : Slice} {i : ℕ} (h : i < s.len) :
    ∃ b, s.bytes[i]? = some b ∧ (s.index i : Outcome ε UInt8) = .ok b :=
  ⟨s.bytes.get ⟨i, h⟩, List.getElem?_eq_getElem h, index_of_getElem? (List.getElem?_eq_getElem h)⟩

theorem range_of_le {s : Slice} {a b : ℕ} (hab : a ≤ b) (hb : b ≤ s.len) :
    (s.range a b : Outcome ε (List UInt8)) = .ok ((s.bytes.drop a).take (b - a)) :=
  if_pos ⟨hab, hb⟩

theorem range_zero {s : Slice} {n : ℕ} (h : n ≤ s.len) :
    (s.range 0 n : Outcome ε (List UInt8)) = .ok (s.bytes.take n) := by
  rw [range_of_le (Nat.zero_le n) h, Nat.sub_zero, List.drop_zero]

theorem rangeFrom_of_le {s : Slice} {a : ℕ} (h : a ≤ s.len) :
    ∃ rest : Slice, (s.rangeFrom a : Outcome ε Slice) = .ok rest ∧ rest.bytes = s.bytes.drop a :=
  ⟨_, if_pos h, rfl⟩

theorem rangeFrom_room {s : Slice} {a : ℕ} (h : a ≤ s.len) :
    ∃ rest : Slice, (s.rangeFrom a : Outcome ε Slice) = .ok rest ∧ rest.len = s.len - a :=
  ⟨_, if_pos h, List.length_drop⟩

theorem range_panic {s : Slice} {a b : ℕ} (h : ¬ (a ≤ b ∧ b ≤ s.len)) :
    (s.range a b : Outcome ε (List UInt8)) = .panic :=
  if_neg h

theorem index_panic {s : Slice} {i : ℕ} (h : s.len ≤ i) :
    (s.index i : Outcome ε UInt8) = .panic := by
  have hnone : s.bytes[i]? = none := List.getElem?_eq_none h
  simp [index, hnone]

@[simp] theorem len_patch (s : Slice) (pos : ℕ) (bs : List UInt8) : (s.patch pos bs).len = s.len := by
  simp only [patch, len, List.length_append, List.length_take, List.length_drop]
  omega

theorem bytes_patch {s : Slice} {pos : ℕ} {bs : List UInt8} (h : pos + bs.length ≤ s.len) :
    (s.patch pos bs).bytes = s.bytes.take pos ++ (bs ++ s.bytes.drop (pos + bs.length)) := by
  have hall : bs.take (s.len - pos) = bs := List.take_of_length_le (by omega)
  simp only [patch, hall]

theorem bytes_patch_zero {s : Slice} {bs : List UInt8} (h : bs.length ≤ s.len) :
    (s.patch 0 bs).bytes = bs ++ s.bytes.drop bs.length := by
  rw [bytes_patch (by omega), List.take_zero, List.nil_append, Nat.zero_add]

theorem bytes_upTo_patch {s : Slice} {bs : List UInt8} (h : bs.length ≤ s.len) :
    ((s.patch 0 bs).upTo bs.length).bytes = bs :=
  (congrArg (List.take bs.length) (bytes_patch_zero h)).trans List.take_left

@[simp] theorem patch_nil (s : Slice) (pos : ℕ) : s.patch pos [] = s := by
  simp [patch]

theorem patch_patch {s : Slice} {done bs : List UInt8} (h : done.length + bs.length ≤ s.len) :
    (s.patch 0 done).patch done.length bs = s.patch 0 (done ++ bs) := by
  have hdone : done.length ≤ s.len := by omega
  have hboth : (done ++ bs).length ≤ s.len := by simpa using h
  have hbytes : ((s.patch 0 done).patch done.length bs).bytes = (s.patch 0 (done ++ bs)).bytes := by
    rw [bytes_patch (by simpa using h), bytes_patch_zero hdone, bytes_patch_zero hboth,
      List.take_left, ← List.drop_drop, List.drop_left, List.drop_drop, List.append_assoc,
      List.length_append]
  exact Slice.mk.injEq .. ▸ hbytes

/-- `s[i] = b` -/
def store (s : Slice) (i : ℕ) (b : UInt8) : Outcome ε Slice :=
  if i < s.len then .ok (s.patch i [b]) else .panic

/-- `s[a..b].copy_from_slice(bs)` -/
def copyAt (s : Slice) (a b : ℕ) (bs : List UInt8) : Outcome ε Slice :=
  if a ≤ b ∧ b ≤ s.len ∧ bs.length = b - a then .ok (s.patch a bs) else .panic

theorem len_copyAt {s t : Slice} {a b : ℕ} {bs : List UInt8}
    (h : (s.copyAt a b bs : Outcome ε Slice) = .ok t) : t.len = s.len := by
  unfold copyAt at h
  split_ifs at h
  rw [← Outcome.ok.inj h, len_patch]

/-- `s[a..b].reverse()` -/
def reverseAt (s : Slice) (a b : ℕ) : Outcome ε Slice :=
  if a ≤ b ∧ b ≤ s.len then .ok (s.patch a ((s.bytes.drop a).take (b - a)).reverse) else .panic

section Front

variable {s : Slice} {done bs : List UInt8}

theorem range_front (h : done.length ≤ s.len) :
    ((s.patch 0 done).range 0 done.length : Outcome ε (List UInt8)) = .ok done := by
  rw [range_zero (by rw [len_patch]; exact h), bytes_patch_zero h, List.take_left]

theorem copyAt_zero (h : bs.length ≤ s.len) :
    (s.copyAt 0 bs.length bs : Outcome ε Slice) = .ok (s.patch 0 bs) :=
  if_pos ⟨Nat.zero_le _, h, rfl⟩

theorem copyAt_front (h : done.length + bs.length ≤ s.len) :
    ((s.patch 0 done).copyAt done.length (done.length + bs.length) bs : Outcome ε Slice) =
      .ok (s.patch 0 (done ++ bs)) := by
  rw [copyAt, if_pos ⟨by omega, by rw [len_patch]; exact h, by omega⟩, patch_patch h]

theorem store_front (h : done.length < s.len) (b : UInt8) :
    ((s.patch 0 done).store done.length b : Outcome ε Slice) = .ok (s.patch 0 (done ++ [b])) := by
  have hfits : done.length + [b].length ≤ s.len := h
  rw [store, if_pos (by rw [len_patch]; exact h), patch_patch hfits]

theorem reverseAt_front (h : done.length + bs.length ≤ s.len) :
    ((s.patch 0 (done ++ bs)).reverseAt done.length (done ++ bs).length : Outcome ε Slice) =
      .ok (s.patch 0 (done ++ bs.reverse)) := by
  have hboth : (done ++ bs).length ≤ s.len := by simpa using h
  have hrun : ((s.patch 0 (done ++ bs)).bytes.drop done.length).take
      ((done ++ bs).length - done.length) = bs := by
    rw [bytes_patch_zero hboth, List.append_assoc, List.drop_left, List.length_append,
      Nat.add_sub_cancel_left, List.take_left]
  have hbytes : ((s.patch 0 (done ++ bs)).patch done.length bs.reverse).bytes =
      (s.patch 0 (done ++ bs.reverse)).bytes := by
    rw [bytes_patch (by simpa using h), bytes_patch_zero hboth,
      bytes_patch_zero (by simpa using h), List.append_assoc, List.take_left, ← List.drop_drop,
      List.drop_left, List.length_reverse, List.drop_left, List.append_assoc]
    simp
  rw [reverseAt, if_pos ⟨by simp, by rw [len_patch]; exact hboth⟩, hrun]
  exact congrArg Outcome.ok (Slice.mk.injEq .. ▸ hbytes)

end Front

theorem run_eq_run_take (bs : List UInt8) {a w n : ℕ} (h : a + w ≤ n) :
    (bs.drop a).take w = ((bs.take n).drop a).take w := by
  rw [List.drop_take, List.take_take, Nat.min_eq_left (by omega)]

end Slice

end RustyLibc
