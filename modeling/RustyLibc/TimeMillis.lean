import RustyLibc.Outcome
import Mathlib.Algebra.Ring.Int.Defs

/-!
# Milliseconds as kernel times (`time.rs`, `fd.rs`)

Rust's division and remainder truncate towards zero, so the remainder has the
sign of the dividend. `Timespec::from_millis` and the aarch64 `poll` make the
same split of a number of milliseconds, the one from an `i64` and the other from
an `i32`. An operation whose exact result does not fit its type panics here.
-/

namespace RustyLibc.Time
open Outcome

structure Timespec where
  tvSec : BitVec 64
  tvNsec : BitVec 64
  deriving DecidableEq, Repr

namespace Timespec

def nanos (ts : Timespec) : ℤ := ts.tvSec.toInt * 1000000000 + ts.tvNsec.toInt

end Timespec

def signed (w : ℕ) (n : ℤ) : Outcome Empty (BitVec w) :=
  if -2 ^ (w - 1) ≤ n ∧ n < 2 ^ (w - 1) then .ok (BitVec.ofInt w n) else .panic

def div {w : ℕ} (a : BitVec w) (b : ℤ) : Outcome Empty (BitVec w) := signed w (a.toInt.tdiv b)
def rem {w : ℕ} (a : BitVec w) (b : ℤ) : Outcome Empty (BitVec w) := signed w (a.toInt.tmod b)
def mul {w : ℕ} (a : BitVec w) (b : ℤ) : Outcome Empty (BitVec w) := signed w (a.toInt * b)

theorem signed_exact {w : ℕ} (hw : 0 < w) {n : ℤ} (hlo : -2 ^ (w - 1) ≤ n)
    (hhi : n < 2 ^ (w - 1)) : ∃ x, signed w n = .ok x ∧ x.toInt = n :=
  ⟨BitVec.ofInt w n, if_pos ⟨hlo, hhi⟩, BitVec.toInt_ofInt_eq_self hw hlo hhi⟩

def fromMillis (ms : BitVec 64) : Outcome Empty Timespec := do
  let tvSec ← div ms 1000
  let rest ← rem ms 1000
  let tvNsec ← mul rest 1000000
  pure ⟨tvSec, tvNsec⟩

theorem millis_bounds (n : ℤ) :
    n.tmod 1000 + n.tdiv 1000 * 1000 = n ∧ -1000 < n.tmod 1000 ∧ n.tmod 1000 < 1000 :=
  ⟨Int.tmod_add_tdiv_mul n 1000, Int.lt_tmod_of_pos n (by omega), Int.tmod_lt_of_pos n (by omega)⟩

theorem div_thousand {w : ℕ} (hw : 32 ≤ w) (a : BitVec w) :
    ∃ q, div a 1000 = .ok q ∧ q.toInt = a.toInt.tdiv 1000 := by
  have hbounds := millis_bounds a.toInt
  have hlo := a.le_toInt
  have hhi := a.toInt_lt
  apply signed_exact (by omega)
  · omega
  · omega

theorem rem_thousand {w : ℕ} (hw : 32 ≤ w) (a : BitVec w) :
    ∃ r, rem a 1000 = .ok r ∧ r.toInt = a.toInt.tmod 1000 := by
  have hbounds := millis_bounds a.toInt
  have hword : 2 ^ 31 ≤ 2 ^ (w - 1) := Nat.pow_le_pow_right (by omega) (by omega)
  have hcast : ((2 ^ (w - 1) : ℕ) : ℤ) = 2 ^ (w - 1) := by norm_cast
  apply signed_exact (by omega)
  · omega
  · omega

theorem mul_million {r : BitVec 64} (hlo : -1000 < r.toInt) (hhi : r.toInt < 1000) :
    ∃ p, mul r 1000000 = .ok p ∧ p.toInt = r.toInt * 1000000 := by
  apply signed_exact (by omega)
  · omega
  · omega

theorem fromMillis_exact (ms : BitVec 64) : ∃ ts, fromMillis ms = .ok ts ∧
    ts.tvSec.toInt = ms.toInt.tdiv 1000 ∧ ts.tvNsec.toInt = ms.toInt.tmod 1000 * 1000000 := by
  have hbounds := millis_bounds ms.toInt
  obtain ⟨q, hq, hsec⟩ := div_thousand (by omega) ms
  obtain ⟨r, hr, hrest⟩ := rem_thousand (by omega) ms
  obtain ⟨p, hp, hnsec⟩ := mul_million (r := r) (by omega) (by omega)
  refine ⟨⟨q, p⟩, ?_, hsec, hnsec.trans (by rw [hrest])⟩
  simp only [fromMillis, hq, hr, hp, ok_bind, pure_eq_ok]

structure PollFd where
  fd : BitVec 32
  events : BitVec 16
  revents : BitVec 16
  deriving DecidableEq, Repr

/-- The call that reaches the kernel: `poll` with the timeout as it is, or
`ppoll` with a time or a null pointer, no signal mask and its size. -/
inductive PollCall where
  | poll (fds : List PollFd) (timeout : BitVec 32)
  | ppoll (fds : List PollFd) (tmo : Option Timespec) (sigmask : Option (BitVec 64))
      (sigsetsize : ℕ)
  deriving DecidableEq, Repr

/-- How long the kernel waits at most, in nanoseconds; `none` is for ever. -/
def PollCall.wait : PollCall → Option ℤ
  | .poll _ timeout => if timeout.toInt < 0 then none else some (timeout.toInt * 1000000)
  | .ppoll _ tmo _ _ => tmo.map Timespec.nanos

def pollX86 (fds : List PollFd) (timeout : BitVec 32) : PollCall := .poll fds timeout

def pollAarch64 (fds : List PollFd) (timeout : BitVec 32) : Outcome Empty PollCall := do
  let ts ← if timeout.toInt < 0 then pure none
    else do
      let tvSec ← div timeout 1000
      let rest ← rem timeout 1000
      let tvNsec ← mul (rest.signExtend 64) 1000000
      pure (some ⟨tvSec.signExtend 64, tvNsec⟩)
  pure (.ppoll fds ts none 8)

def Timespec.Denotes (ts : Timespec) (ms : ℤ) : Prop :=
  0 ≤ ts.tvNsec.toInt ∧ ts.tvNsec.toInt < 1000000000 ∧ ts.nanos = ms * 1000000

theorem nanos_exact {ts : Timespec} {ms : ℤ} (hsec : ts.tvSec.toInt = ms.tdiv 1000)
    (hnsec : ts.tvNsec.toInt = ms.tmod 1000 * 1000000) : ts.nanos = ms * 1000000 := by
  have hbounds := millis_bounds ms
  rw [Timespec.nanos, hsec, hnsec]
  omega

theorem tmod_nonneg_iff (ms : ℤ) : 0 ≤ ms.tmod 1000 ↔ 0 ≤ ms ∨ 1000 ∣ ms := by
  constructor
  · intro hrest
    by_cases hneg : 0 ≤ ms
    · exact Or.inl hneg
    · -- the remainder of a negative dividend is never positive
      have hflip : 0 ≤ (-ms).tmod 1000 := Int.tmod_nonneg 1000 (by omega)
      rw [Int.neg_tmod] at hflip
      exact Or.inr (Int.dvd_of_tmod_eq_zero (by omega))
  · intro h
    rcases h with hpos | hdvd
    · exact Int.tmod_nonneg 1000 hpos
    · have hzero := Int.tmod_eq_zero_of_dvd hdvd
      omega

theorem fromMillis_denotes_iff (ms : BitVec 64) :
    (∃ ts, fromMillis ms = .ok ts ∧ ts.Denotes ms.toInt) ↔ 0 ≤ ms.toInt ∨ 1000 ∣ ms.toInt := by
  have hbounds := millis_bounds ms.toInt
  obtain ⟨ts, hts, hsec, hnsec⟩ := fromMillis_exact ms
  rw [← tmod_nonneg_iff]
  constructor
  · rintro ⟨ts', hts', hlo, -, -⟩
    rw [hts] at hts'
    rw [← Outcome.ok.inj hts', hnsec] at hlo
    omega
  · intro hrest
    exact ⟨ts, hts, by omega, by omega, nanos_exact hsec hnsec⟩

theorem pollAarch64_of_nonneg (fds : List PollFd) {timeout : BitVec 32} (h : 0 ≤ timeout.toInt) :
    ∃ ts, fromMillis (timeout.signExtend 64) = .ok ts ∧
      pollAarch64 fds timeout = .ok (.ppoll fds (some ts) none 8) := by
  have hbounds := millis_bounds timeout.toInt
  have hwide : (timeout.signExtend 64).toInt = timeout.toInt :=
    BitVec.toInt_signExtend_of_le (by omega)
  obtain ⟨ts, hts, hsec, hnsec⟩ := fromMillis_exact (timeout.signExtend 64)
  obtain ⟨q, hq, hqval⟩ := div_thousand (by omega) timeout
  obtain ⟨r, hr, hrval⟩ := rem_thousand (by omega) timeout
  have hrwide : (r.signExtend 64).toInt = r.toInt := BitVec.toInt_signExtend_of_le (by omega)
  obtain ⟨p, hp, hpval⟩ := mul_million (r := r.signExtend 64) (by omega) (by omega)
  -- both splits are made of the same two integers
  have hsame : ts = ⟨q.signExtend 64, p⟩ := by
    have hqwide : (q.signExtend 64).toInt = q.toInt := BitVec.toInt_signExtend_of_le (by omega)
    have h1 : ts.tvSec = q.signExtend 64 := BitVec.eq_of_toInt_eq (by rw [hsec, hqwide, hqval, hwide])
    have h2 : ts.tvNsec = p :=
      BitVec.eq_of_toInt_eq (by rw [hnsec, hpval, hrwide, hrval, hwide])
    rw [← h1, ← h2]
  refine ⟨ts, hts, ?_⟩
  simp only [pollAarch64, if_neg (show ¬ timeout.toInt < 0 by omega), hq, hr, hp, hsame, ok_bind,
    pure_eq_ok]

theorem pollAarch64_of_neg (fds : List PollFd) {timeout : BitVec 32} (h : timeout.toInt < 0) :
    pollAarch64 fds timeout = .ok (.ppoll fds none none 8) := by
  simp only [pollAarch64, if_pos h, ok_bind, pure_eq_ok]

/-- The aarch64 `poll` hands over no time for a negative timeout and otherwise
the one `from_millis` makes, and so waits as long as the x86_64 `poll`. -/
def PollAgrees (fds : List PollFd) (timeout : BitVec 32) : Prop :=
  ∃ tmo, pollAarch64 fds timeout = .ok (.ppoll fds tmo none 8) ∧
    (timeout.toInt < 0 → tmo = none) ∧
    (0 ≤ timeout.toInt → ∃ ts, fromMillis (timeout.signExtend 64) = .ok ts ∧
      ts.Denotes timeout.toInt ∧ tmo = some ts) ∧
    (PollCall.ppoll fds tmo none 8).wait = (pollX86 fds timeout).wait

theorem pollAgrees (fds : List PollFd) (timeout : BitVec 32) : PollAgrees fds timeout := by
  by_cases h : timeout.toInt < 0
  · refine ⟨none, pollAarch64_of_neg fds h, fun _ => rfl, fun hpos => by omega, ?_⟩
    simp only [PollCall.wait, pollX86, if_pos h, Option.map_none]
  · have hpos : 0 ≤ timeout.toInt := by omega
    obtain ⟨ts, hts, hcall⟩ := pollAarch64_of_nonneg fds hpos
    have hwide : (timeout.signExtend 64).toInt = timeout.toInt :=
      BitVec.toInt_signExtend_of_le (by omega)
    obtain ⟨ts', hts', hdenotes⟩ := (fromMillis_denotes_iff (timeout.signExtend 64)).2
      (Or.inl (by omega))
    rw [hts] at hts'
    rw [← Outcome.ok.inj hts', hwide] at hdenotes
    refine ⟨some ts, hcall, fun hneg => absurd hneg h, fun _ => ⟨ts, hts, hdenotes, rfl⟩, ?_⟩
    simp only [PollCall.wait, pollX86, if_neg h, Option.map_some, hdenotes.2.2]

/-- Every number of milliseconds is converted to a time of the same length, and
`tv_nsec` stays in its range exactly for the counts from zero on and for whole
seconds below zero. -/
theorem millis_conversions_valid_iff (ms : BitVec 64) (fds : List PollFd) (timeout : BitVec 32) :
    (∃ ts, fromMillis ms = .ok ts ∧ ts.Denotes ms.toInt) ∧ PollAgrees fds timeout ↔
      0 ≤ ms.toInt ∨ 1000 ∣ ms.toInt := by
  rw [and_iff_left (pollAgrees fds timeout)]
  exact fromMillis_denotes_iff ms

theorem fromMillis_minus_one : fromMillis (-1) = .ok ⟨0, -1000000⟩ ∧
    ¬ ∃ ts, fromMillis (-1) = .ok ts ∧ ts.Denotes (-1) := by
  have hval : fromMillis (-1) = .ok ⟨0, -1000000⟩ := rfl
  refine ⟨hval, ?_⟩
  rintro ⟨ts, hts, hlo, -⟩
  rw [hval] at hts
  rw [← Outcome.ok.inj hts] at hlo
  exact absurd hlo (by decide)

end RustyLibc.Time
