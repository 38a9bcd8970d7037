import RustyLibc.AsmBlock
import RustyLibc.StepMachine
import RustyLibc.LinuxKernel

/-!
# The aarch64 instructions of the trampolines

A machine for the instructions that `arch/aarch64.rs` writes by hand. `svc #0`
changes `x0` and no other register; a call has its number in `x8` and its
arguments in `x0`, `x1` and `x2`. A `w` register is the low half of its `x`
register; loading one clears the high half. Memory is only read, as 32-bit
words, by `ldr wd, [base, #disp]`.
-/

namespace RustyLibc.Aarch64
open Linux StepMachine AsmBlock

inductive Reg where
  | x0 | x1 | x2 | x3 | x4 | x8 | x9 | x10 | x11 | x12 | x13 | x14 | x15
  deriving DecidableEq, Repr

inductive Cond where
  | eq | lt
  deriving DecidableEq, Repr

inductive Instr where
  | label (n : ℕ)
  | svc
  | mov (d s : Reg)
  | movi (d : Reg) (v : BitVec 64)
  | addi (d a : Reg) (v : BitVec 64)
  | addLsl (d a b : Reg) (shift : ℕ)
  | ldrW (d base : Reg) (disp : BitVec 64)
  | cmpW (a b : Reg)
  | cmp (a b : Reg)
  | cmpi (a : Reg) (v : BitVec 64)
  | bcond (c : Cond) (n : ℕ) (way : Way)
  | cbz (a : Reg) (n : ℕ) (way : Way)
  | cbnz (a : Reg) (n : ℕ) (way : Way)
  | brk
  deriving DecidableEq, Repr

abbrev Program := List Instr

abbrev Regs := Reg → BitVec 64

def Regs.set (regs : Regs) (r : Reg) (v : BitVec 64) : Regs := fun y => if y = r then v else regs y

structure Flags where
  n : Bool
  z : Bool
  c : Bool
  v : Bool
  deriving DecidableEq, Repr

def Flags.compare {w : ℕ} (a b : BitVec w) : Flags :=
  ⟨(a - b).msb, a - b == 0, b.ule a, BitVec.ssubOverflow a b⟩

def Cond.holds (fl : Flags) : Cond → Bool
  | .eq => fl.z
  | .lt => fl.n != fl.v

structure Cfg (φ : Type) where
  regs : Regs
  flags : Flags
  pc : ℕ
  proc : Proc φ

namespace Nr
def dup3 : BitVec 64 := 24
def exitGroup : BitVec 64 := 94
def clone : BitVec 64 := 220
def execve : BitVec 64 := 221
end Nr

def callOf (regs : Regs) : Call :=
  if regs .x8 = Nr.dup3 then
    .dup3 ((regs .x0).setWidth 32) ((regs .x1).setWidth 32) ((regs .x2).setWidth 32)
  else if regs .x8 = Nr.execve then .execve (regs .x0) (regs .x1) (regs .x2)
  else if regs .x8 = Nr.exitGroup then .exitGroup ((regs .x0).setWidth 32)
  else if regs .x8 = Nr.clone then .clone (regs .x0)
  else .unknown (regs .x8)

variable {φ : Type}

def exec (word : BitVec 64 → BitVec 32) (K : Kernel φ) (who : BitVec 64) (prog : Program)
    (c : Cfg φ) : Instr → Cfg φ
  | .label _ => { c with pc := c.pc + 1 }
  | .svc =>
    match K.serve who c.proc (callOf c.regs) with
    | (p, some v) => { c with regs := c.regs.set .x0 v, pc := c.pc + 1, proc := p }
    | (p, none) => { c with proc := p }
  | .mov d s => { c with regs := c.regs.set d (c.regs s), pc := c.pc + 1 }
  | .movi d v => { c with regs := c.regs.set d v, pc := c.pc + 1 }
  | .addi d a v => { c with regs := c.regs.set d (c.regs a + v), pc := c.pc + 1 }
  | .addLsl d a b shift =>
    { c with regs := c.regs.set d (c.regs a + c.regs b <<< shift), pc := c.pc + 1 }
  | .ldrW d base disp =>
    { c with regs := c.regs.set d ((word (c.regs base + disp)).setWidth 64), pc := c.pc + 1 }
  | .cmpW a b =>
    { c with
      flags := .compare ((c.regs a).setWidth 32) ((c.regs b).setWidth 32)
      pc := c.pc + 1 }
  | .cmp a b => { c with flags := .compare (c.regs a) (c.regs b), pc := c.pc + 1 }
  | .cmpi a v => { c with flags := .compare (c.regs a) v, pc := c.pc + 1 }
  | .bcond cond n way =>
    { c with pc := if cond.holds c.flags then resolve prog (.label n) c.pc way else c.pc + 1 }
  | .cbz a n way =>
    { c with pc := if c.regs a = 0 then resolve prog (.label n) c.pc way else c.pc + 1 }
  | .cbnz a n way =>
    { c with pc := if c.regs a = 0 then c.pc + 1 else resolve prog (.label n) c.pc way }
  | .brk => { c with proc := { c.proc with status := .trapped } }

def next (word : BitVec 64 → BitVec 32) (K : Kernel φ) (who : BitVec 64) (prog : Program)
    (c : Cfg φ) : Option (Cfg φ) :=
  if c.proc.status = .running then
    match prog[c.pc]? with
    | some i => some (exec word K who prog c i)
    | none => some { c with proc := { c.proc with status := .returned } }
  else none

section Steps

variable {word : BitVec 64 → BitVec 32} {K : Kernel φ} {who : BitVec 64} {prog : Program}

theorem next_halted {c : Cfg φ} (h : c.proc.status ≠ .running) : next word K who prog c = none :=
  if_neg h

theorem next_svc_some {c : Cfg φ} {call : Call} {p : Proc φ} {v : BitVec 64}
    (hrun : c.proc.status = .running) (hpc : prog[c.pc]? = some .svc)
    (hcall : callOf c.regs = call) (h : K.serve who c.proc call = (p, some v)) :
    next word K who prog c = some ⟨c.regs.set .x0 v, c.flags, c.pc + 1, p⟩ := by
  rw [next, if_pos hrun, hpc]
  simp only [exec, hcall, h]

theorem next_svc_none {c : Cfg φ} {call : Call} {p : Proc φ}
    (hrun : c.proc.status = .running) (hpc : prog[c.pc]? = some .svc)
    (hcall : callOf c.regs = call) (h : K.serve who c.proc call = (p, none)) :
    next word K who prog c = some { c with proc := p } := by
  rw [next, if_pos hrun, hpc]
  simp only [exec, hcall, h]

end Steps

theorem compare_eq {w : ℕ} (a b : BitVec w) :
    Cond.eq.holds (.compare a b) = decide (a = b) := by
  change (a - b == 0) = decide (a = b)
  rw [Bool.eq_iff_iff, beq_iff_eq, decide_eq_true_eq]
  constructor
  · intro h
    simpa using BitVec.sub_eq_iff_eq_add.mp h
  · intro heq
    obtain rfl := heq
    exact BitVec.sub_self a

theorem compare_lt_zero (a : BitVec 64) : Cond.lt.holds (.compare a 0) = a.msb := by
  change ((a - 0).msb != BitVec.ssubOverflow a 0) = a.msb
  have hsub : a - 0 = a := BitVec.sub_zero a
  have hzero : (0 : BitVec 64).msb = false := rfl
  rw [BitVec.ssubOverflow_eq, hsub, hzero]
  cases a.msb <;> rfl

theorem compare_lt_of_lt {a b : BitVec 64} (ha : a.toNat < 2 ^ 63) (hb : b.toNat < 2 ^ 63) :
    Cond.lt.holds (.compare a b) = decide (a.toNat < b.toNat) := by
  change ((a - b).msb != BitVec.ssubOverflow a b) = _
  have hma : a.msb = false := by
    rw [BitVec.msb_eq_decide, decide_eq_false_iff_not]
    omega
  have hmb : b.msb = false := by
    rw [BitVec.msb_eq_decide, decide_eq_false_iff_not]
    omega
  rw [BitVec.ssubOverflow_eq, hma, hmb]
  simp only [Bool.not_false, Bool.true_and, Bool.false_and, Bool.or_self, Bool.bne_false,
    BitVec.msb_eq_decide, BitVec.toNat_sub, decide_eq_decide]
  omega

end RustyLibc.Aarch64
