import RustyLibc.Outcome
import RustyLibc.SyscallReturn
import Mathlib.Algebra.Ring.Int.Defs
import Mathlib.Order.Lattice

/-!
# Signals and scheduling priority (`process.rs`)

`killpg` negates its argument and hands it to `kill`, whose argument names a
process, a group or everybody by its sign; `nice` reads the nice value, adds to
it and writes it back. An `i32` is a word of 32 bits. Addition and subtraction
of `i32` panic on overflow in a build with overflow checks and wrap around in
one without: `checks` says which.
-/

namespace RustyLibc.Process
open Outcome Linux

structure Proc where
  pid : ℤ
  pgid : ℤ
  deriving DecidableEq, Repr

/-- The processes, the one that calls, and which of them it may send which
signal. Process and group ids are positive `i32`s. -/
structure ProcTable where
  procs : List Proc
  caller : Proc
  maySignal : Proc → BitVec 32 → Bool
  caller_mem : caller ∈ procs
  pid_range : ∀ p ∈ procs, 0 < p.pid ∧ p.pid < 2 ^ 31
  pgid_range : ∀ p ∈ procs, 0 < p.pgid ∧ p.pgid < 2 ^ 31

/-- The processes that kill(2) means by `pid`. Of all that `-1` stands for, Linux passes
over the process 1 and the caller, which are not set apart here. -/
def targets (caller : Proc) (pid : ℤ) (p : Proc) : Bool :=
  if 0 < pid then p.pid = pid
  else if pid = 0 then p.pgid = caller.pgid
  else if pid = -1 then true
  else p.pgid = -pid

def sysKill (t : ProcTable) (pid sig : BitVec 32) : BitVec 64 × List Proc :=
  let meant := t.procs.filter (targets t.caller pid.toInt)
  let reached := meant.filter (t.maySignal · sig)
  if meant = [] then (SysErr.ESRCH.raw, [])
  else if reached = [] then (SysErr.EPERM.raw, [])
  else (0, reached)

def kill (t : ProcTable) (pid sig : BitVec 32) : Except Errno Unit × List Proc :=
  let (ret, reached) := sysKill t pid sig
  (unitRet ret, reached)

/-- `killpg`; the negation wraps around. -/
def killpg (t : ProcTable) (pgrp sig : BitVec 32) : Except Errno Unit × List Proc :=
  kill t (-pgrp) sig

def InGroup (t : ProcTable) (pgrp : BitVec 32) (p : Proc) : Prop :=
  p.pgid = if pgrp = 0 then t.caller.pgid else pgrp.toInt

/-- Exactly the processes of the group are signalled, as far as the caller may. -/
def SignalsGroup (t : ProcTable) (pgrp sig : BitVec 32) : Prop :=
  (∀ p ∈ (killpg t pgrp sig).2, InGroup t pgrp p) ∧
    ∀ p ∈ t.procs, InGroup t pgrp p → t.maySignal p sig = true → p ∈ (killpg t pgrp sig).2

theorem mem_kill {t : ProcTable} {pid sig : BitVec 32} {p : Proc} :
    p ∈ (kill t pid sig).2 ↔
      p ∈ t.procs ∧ targets t.caller pid.toInt p = true ∧ t.maySignal p sig = true := by
  have hreached : (kill t pid sig).2 =
      (t.procs.filter (targets t.caller pid.toInt)).filter (t.maySignal · sig) := by
    unfold kill sysKill
    dsimp only
    split_ifs with hmeant hnone
    · rw [hmeant]
      rfl
    · exact hnone.symm
    · rfl
  rw [hreached, List.mem_filter, List.mem_filter, and_assoc]

theorem toInt_neg_of_ne_min {x : BitVec 32} (h : x.toInt ≠ -2 ^ 31) : (-x).toInt = -x.toInt := by
  have hlo := BitVec.le_toInt x
  have hhi := BitVec.toInt_lt (x := x)
  rw [BitVec.toInt_neg]
  exact Int.bmod_eq_of_le (by omega) (by omega)

theorem toInt_neg_min {x : BitVec 32} (h : x.toInt = -2 ^ 31) : (-x).toInt = -2 ^ 31 := by
  rw [BitVec.toInt_neg, h]
  rfl

theorem pgrp_cases (x : BitVec 32) :
    x = 0 ∨ (2 ≤ x.toInt ∧ (-x).toInt = -x.toInt) ∨ (x.toInt = 1 ∧ (-x).toInt = -1) ∨
      (-2 ^ 31 < x.toInt ∧ x.toInt < 0 ∧ (-x).toInt = -x.toInt) ∨
      (x.toInt = -2 ^ 31 ∧ (-x).toInt = -2 ^ 31) := by
  have hlo := BitVec.le_toInt x
  by_cases hmin : x.toInt = -2 ^ 31
  · exact Or.inr (Or.inr (Or.inr (Or.inr ⟨hmin, toInt_neg_min hmin⟩)))
  · have hneg := toInt_neg_of_ne_min hmin
    rcases lt_trichotomy x.toInt 0 with hlt | heq | hgt
    · exact Or.inr (Or.inr (Or.inr (Or.inl ⟨by omega, hlt, hneg⟩)))
    · exact Or.inl (BitVec.eq_of_toInt_eq heq)
    · rcases Int.lt_or_le x.toInt 2 with hone | htwo
      · exact Or.inr (Or.inr (Or.inl ⟨by omega, by omega⟩))
      · exact Or.inr (Or.inl ⟨htwo, hneg⟩)

section Groups

variable {t : ProcTable} {pgrp sig : BitVec 32}

theorem inGroup_iff {p : Proc} (h : pgrp.toInt ≠ 0) : InGroup t pgrp p ↔ p.pgid = pgrp.toInt := by
  have hne : pgrp ≠ 0 := by
    intro h0
    rw [h0] at h
    exact h rfl
  rw [InGroup, if_neg hne]

theorem not_inGroup_of_neg {p : Proc} (hp : p ∈ t.procs) (h : pgrp.toInt < 0) :
    ¬ InGroup t pgrp p := by
  have hpos := (t.pgid_range p hp).1
  rw [inGroup_iff h.ne]
  omega

theorem mem_killpg {p : Proc} : p ∈ (killpg t pgrp sig).2 ↔
    p ∈ t.procs ∧ targets t.caller (-pgrp).toInt p = true ∧ t.maySignal p sig = true :=
  mem_kill

theorem signalsGroup_of_targets
    (h : ∀ p ∈ t.procs, targets t.caller (-pgrp).toInt p = true ↔ InGroup t pgrp p) :
    SignalsGroup t pgrp sig := by
  refine ⟨fun p hp => ?_, fun p hp hin hmay => ?_⟩
  · obtain ⟨hmem, htarget, -⟩ := mem_killpg.mp hp
    exact (h p hmem).mp htarget
  · exact mem_killpg.mpr ⟨hp, (h p hp).mpr hin, hmay⟩

theorem signalsGroup_one_iff (hone : pgrp.toInt = 1) (hneg : (-pgrp).toInt = -1) :
    SignalsGroup t pgrp sig ↔ ∀ p ∈ t.procs, t.maySignal p sig = true → p.pgid = 1 := by
  have hsel : ∀ p : Proc, targets t.caller (-pgrp).toInt p = true := by
    intro p
    rw [targets, hneg]
    rfl
  have hin : ∀ p : Proc, InGroup t pgrp p ↔ p.pgid = 1 := by
    intro p
    rw [inGroup_iff (by omega), hone]
  constructor
  · intro h p hp hmay
    exact (hin p).mp (h.1 p (mem_killpg.mpr ⟨hp, hsel p, hmay⟩))
  · intro h
    refine ⟨fun p hp => ?_, fun p hp _ hmay => mem_killpg.mpr ⟨hp, hsel p, hmay⟩⟩
    obtain ⟨hmem, -, hmay⟩ := mem_killpg.mp hp
    exact (hin p).mpr (h p hmem hmay)

theorem signalsGroup_neg_iff (hlt : pgrp.toInt < 0) (hneg : (-pgrp).toInt = -pgrp.toInt) :
    SignalsGroup t pgrp sig ↔
      ∀ p ∈ t.procs, p.pid = -pgrp.toInt → t.maySignal p sig = false := by
  have hsel : ∀ p : Proc, targets t.caller (-pgrp).toInt p = true ↔ p.pid = -pgrp.toInt := by
    intro p
    rw [targets, hneg, if_pos (by omega), decide_eq_true_iff]
  constructor
  · intro h p hp hpid
    rw [← Bool.not_eq_true]
    intro hmay
    exact not_inGroup_of_neg hp hlt (h.1 p (mem_killpg.mpr ⟨hp, (hsel p).mpr hpid, hmay⟩))
  · intro h
    refine ⟨fun p hp => ?_, fun p hp hin => absurd hin (not_inGroup_of_neg hp hlt)⟩
    obtain ⟨hmem, htarget, hmay⟩ := mem_killpg.mp hp
    have hno := h p hmem ((hsel p).mp htarget)
    rw [hmay] at hno
    exact Bool.noConfusion hno

end Groups

/-- The group is signalled and nobody else, except that `1` stands for everybody
and a negative number for a process. -/
theorem killpg_group_iff (t : ProcTable) (pgrp sig : BitVec 32) :
    SignalsGroup t pgrp sig ↔
      (pgrp.toInt = 1 → ∀ p ∈ t.procs, t.maySignal p sig = true → p.pgid = 1) ∧
      (-2 ^ 31 < pgrp.toInt → pgrp.toInt < 0 →
        ∀ p ∈ t.procs, p.pid = -pgrp.toInt → t.maySignal p sig = false) := by
  rcases pgrp_cases pgrp with rfl | ⟨htwo, hneg⟩ | ⟨hone, hneg⟩ | ⟨hmin, hlt, hneg⟩ | ⟨hmin, hneg⟩
  · -- the caller's own group
    apply iff_of_true _ (by simp)
    apply signalsGroup_of_targets
    intro p _
    simp [targets, InGroup]
  · -- a group with an id that `kill` reads as one
    apply iff_of_true _ ⟨by omega, by omega⟩
    apply signalsGroup_of_targets
    intro p _
    rw [targets, hneg, if_neg (by omega), if_neg (by omega), if_neg (by omega),
      inGroup_iff (by omega), decide_eq_true_iff, Int.neg_neg]
  · rw [signalsGroup_one_iff hone hneg]
    exact ⟨fun h => ⟨fun _ => h, by omega⟩, fun h => h.1 hone⟩
  · rw [signalsGroup_neg_iff hlt hneg]
    exact ⟨fun h => ⟨by omega, fun _ _ => h⟩, fun h => h.2 hmin hlt⟩
  · -- the least number is its own negation, and too large for a group id
    apply iff_of_true _ ⟨by omega, by omega⟩
    apply signalsGroup_of_targets
    intro p hp
    have hlt := (t.pgid_range p hp).2
    apply iff_of_false _ (not_inGroup_of_neg hp (by omega))
    rw [targets, hneg, if_neg (by omega), if_neg (by omega), if_neg (by omega),
      decide_eq_true_iff]
    omega

def threeProcs : ProcTable where
  procs := [⟨1, 1⟩, ⟨7, 7⟩, ⟨8, 7⟩]
  caller := ⟨8, 7⟩
  maySignal _ _ := true
  caller_mem := by decide
  pid_range := by decide
  pgid_range := by decide

theorem killpg_one_threeProcs :
    (killpg threeProcs 1 15).2 = threeProcs.procs ∧ ¬ SignalsGroup threeProcs 1 15 ∧
      (killpg threeProcs (-8) 15).2 = [⟨8, 7⟩] ∧ ¬ SignalsGroup threeProcs (-8) 15 := by
  have hone : (killpg threeProcs 1 15).2 = threeProcs.procs := by decide
  have height : (killpg threeProcs (-8) 15).2 = [⟨8, 7⟩] := by decide
  refine ⟨hone, fun h => ?_, height, fun h => ?_⟩
  · have hin := h.1 ⟨7, 7⟩ (by rw [hone]; decide)
    exact absurd hin (by unfold InGroup; decide)
  · have hin := h.1 ⟨8, 7⟩ (by rw [height]; decide)
    exact absurd hin (by unfold InGroup; decide)

abbrev Niceness := { n : ℤ // -20 ≤ n ∧ n ≤ 19 }

def clampNice (n : ℤ) : Niceness :=
  ⟨max (-20) (min 19 n), le_max_left _ _, max_le (by decide) (min_le_left _ _)⟩

def prioProcess : BitVec 32 := 0

/-- getpriority(2) and setpriority(2) for a caller with the privilege it needs.
Only what they do to the caller itself is known: the first returns 20 less the
nice value, the second brings its argument into range. -/
structure PrioKernel where
  getpriority : Niceness → BitVec 32 → BitVec 32 → BitVec 64
  setpriority : Niceness → BitVec 32 → BitVec 32 → BitVec 32 → BitVec 64 × Niceness
  get_self : ∀ c, getpriority c prioProcess 0 = countRet (20 - c.val).toNat
  set_self : ∀ c prio, setpriority c prioProcess 0 prio = (0, clampNice prio.toInt)

def i32 (checks : Bool) (n : ℤ) : Outcome Errno (BitVec 32) :=
  if checks = true ∧ ¬ (-2 ^ 31 ≤ n ∧ n < 2 ^ 31) then .panic else .ok (BitVec.ofInt 32 n)

def getpriority (k : PrioKernel) (checks : Bool) (c : Niceness) (which who : BitVec 32) :
    Outcome Errno (BitVec 32) :=
  match fromRet (k.getpriority c which who) with
  | .error e => .err e
  | .ok raw => i32 checks (20 - (raw.setWidth 32).toInt)

def setpriority (k : PrioKernel) (c : Niceness) (which who prio : BitVec 32) :
    Outcome Errno Unit × Niceness :=
  let (ret, c') := k.setpriority c which who prio
  match unitRet ret with
  | .error e => (.err e, c')
  | .ok () => (.ok (), c')

def nice (k : PrioKernel) (checks : Bool) (c : Niceness) (inc : BitVec 32) :
    Outcome Errno (BitVec 32) × Niceness :=
  let sum := do
    let current ← getpriority k checks c prioProcess 0
    i32 checks (current.toInt + inc.toInt)
  match sum with
  | .ok target =>
    let (done, c') := setpriority k c prioProcess 0 target
    (done >>= fun _ => getpriority k checks c' prioProcess 0, c')
  | .err e => (.err e, c)
  | .panic => (.panic, c)
  | .diverge => (.diverge, c)

theorem toInt_ofInt {n : ℤ} (hlo : -2 ^ 31 ≤ n) (hhi : n < 2 ^ 31) :
    (BitVec.ofInt 32 n).toInt = n := by
  rw [BitVec.toInt_ofInt]
  exact Int.bmod_eq_of_le (by omega) (by omega)

theorem i32_of_range {checks : Bool} {n : ℤ} (hlo : -2 ^ 31 ≤ n) (hhi : n < 2 ^ 31) :
    i32 checks n = .ok (BitVec.ofInt 32 n) :=
  if_neg fun h => h.2 ⟨hlo, hhi⟩

theorem getpriority_self (k : PrioKernel) (checks : Bool) (c : Niceness) :
    getpriority k checks c prioProcess 0 = .ok (BitVec.ofInt 32 c.val) := by
  obtain ⟨hlo, hhi⟩ := c.property
  obtain ⟨m, hm⟩ : ∃ m : ℕ, 20 - c.val = m := ⟨(20 - c.val).toNat, by omega⟩
  have hsmall : m < 2 ^ 63 := by omega
  have hraw : ((countRet m).setWidth 32).toInt = m := by
    rw [BitVec.toInt_eq_toNat_of_lt] <;>
      rw [BitVec.toNat_setWidth, toNat_countRet hsmall, Nat.mod_eq_of_lt (by omega)]
    omega
  rw [getpriority, k.get_self, hm, Int.toNat_natCast, fromRet_countRet hsmall]
  dsimp only
  rw [hraw, i32_of_range (by omega) (by omega), show (20 : ℤ) - m = c.val by omega]

theorem nice_eq (k : PrioKernel) (checks : Bool) (c : Niceness) (inc : BitVec 32) :
    nice k checks c inc =
      if checks = true ∧ ¬ (-2 ^ 31 ≤ c.val + inc.toInt ∧ c.val + inc.toInt < 2 ^ 31) then
        (.panic, c)
      else
        (.ok (BitVec.ofInt 32 (clampNice (BitVec.ofInt 32 (c.val + inc.toInt)).toInt).val),
          clampNice (BitVec.ofInt 32 (c.val + inc.toInt)).toInt) := by
  obtain ⟨hlo, hhi⟩ := c.property
  have hself := toInt_ofInt (n := c.val) (by omega) (by omega)
  rw [nice, getpriority_self, ok_bind, hself, i32]
  by_cases hover : checks = true ∧ ¬ (-2 ^ 31 ≤ c.val + inc.toInt ∧ c.val + inc.toInt < 2 ^ 31)
  · rw [if_pos hover, if_pos hover]
  · rw [if_neg hover, if_neg hover]
    dsimp only
    rw [setpriority, k.set_self]
    dsimp only
    rw [unitRet_zero]
    dsimp only
    rw [ok_bind, getpriority_self]

/-- The nice value moves by `inc`, as far as the range allows and never the other
way, and the result is the new value. The sum is formed without overflow: a build
that checks does not panic. -/
def NiceAdjusts (k : PrioKernel) (checks : Bool) (c : Niceness) (inc : BitVec 32) : Prop :=
  nice k checks c inc =
      (.ok (BitVec.ofInt 32 (clampNice (c.val + inc.toInt)).val), clampNice (c.val + inc.toInt)) ∧
    (nice k true c inc).1 ≠ .panic ∧
    (0 < inc.toInt → c.val ≤ (nice k checks c inc).2.val) ∧
    (inc.toInt < 0 → (nice k checks c inc).2.val ≤ c.val)

theorem wrapped_far {c : Niceness} {n : ℤ} (hlo : -2 ^ 31 ≤ n) (hhi : n < 2 ^ 31)
    (hover : ¬ (-2 ^ 31 ≤ c.val + n ∧ c.val + n < 2 ^ 31)) :
    clampNice (BitVec.ofInt 32 (c.val + n)).toInt ≠ clampNice (c.val + n) := by
  obtain ⟨hc, hc'⟩ := c.property
  rw [BitVec.toInt_ofInt]
  intro h
  have hval : max (-20) (min 19 ((c.val + n).bmod (2 ^ 32))) = max (-20) (min 19 (c.val + n)) :=
    congrArg Subtype.val h
  rcases Int.lt_or_le (c.val + n) 0 with hneg | hpos
  · have hwrap : (c.val + n).bmod (2 ^ 32) = c.val + n + 2 ^ 32 := by
      rw [Int.bmod_eq_iff (by decide)]
      omega
    omega
  · have hwrap : (c.val + n).bmod (2 ^ 32) = c.val + n - 2 ^ 32 := by
      rw [Int.bmod_eq_iff (by decide)]
      omega
    omega

/-- `nice` is the relative adjustment it is documented to be exactly when the sum
of the nice value and the increment is an `i32`. Beyond that it panics, or
leaves a wrong value if overflow is not checked. -/
theorem nice_adjusts_iff (k : PrioKernel) (checks : Bool) (c : Niceness) (inc : BitVec 32) :
    (NiceAdjusts k checks c inc ↔
      -2 ^ 31 ≤ c.val + inc.toInt ∧ c.val + inc.toInt < 2 ^ 31) ∧
    (¬ (-2 ^ 31 ≤ c.val + inc.toInt ∧ c.val + inc.toInt < 2 ^ 31) →
      (nice k true c inc).1 = .panic ∧
        (nice k false c inc).2 ≠ clampNice (c.val + inc.toInt)) := by
  have hpanic : ¬ (-2 ^ 31 ≤ c.val + inc.toInt ∧ c.val + inc.toInt < 2 ^ 31) →
      (nice k true c inc).1 = .panic := by
    intro hover
    rw [nice_eq, if_pos ⟨rfl, hover⟩]
  refine ⟨⟨fun h => ?_, fun h => ?_⟩, fun hover => ⟨hpanic hover, ?_⟩⟩
  · by_contra hover
    exact h.2.1 (hpanic hover)
  · obtain ⟨hlo, hhi⟩ := c.property
    have hrun : ∀ checks, nice k checks c inc =
        (.ok (BitVec.ofInt 32 (clampNice (c.val + inc.toInt)).val),
          clampNice (c.val + inc.toInt)) := by
      intro checks
      rw [nice_eq, if_neg fun hover => hover.2 h, toInt_ofInt h.1 h.2]
    rw [NiceAdjusts, hrun, hrun]
    refine ⟨rfl, by simp, fun hinc => ?_, fun hinc => ?_⟩
    · simp only [clampNice]
      omega
    · simp only [clampNice]
      omega
  · rw [nice_eq, if_neg (by simp)]
    exact wrapped_far (BitVec.le_toInt inc) BitVec.toInt_lt hover

def loneTask : PrioKernel where
  getpriority c which who :=
    if which = prioProcess ∧ who = 0 then countRet (20 - c.val).toNat else SysErr.ESRCH.raw
  setpriority c which who prio :=
    if which = prioProcess ∧ who = 0 then (0, clampNice prio.toInt) else (SysErr.ESRCH.raw, c)
  get_self _ := rfl
  set_self _ _ := rfl

def niceOne : Niceness := ⟨1, by decide⟩

theorem nice_wraps_niceOne :
    (nice loneTask true niceOne 0x7FFFFFFF).1 = .panic ∧
      (nice loneTask false niceOne 0x7FFFFFFF).2.val = -20 ∧
      ¬ NiceAdjusts loneTask true niceOne 0x7FFFFFFF ∧
      ¬ NiceAdjusts loneTask false niceOne 0x7FFFFFFF := by
  have hpanic : (nice loneTask true niceOne 0x7FFFFFFF).1 = .panic := by decide
  exact ⟨hpanic, by decide, fun h => h.2.1 hpanic, fun h => h.2.1 hpanic⟩

end RustyLibc.Process
