import RustyLibc.AsmBlock
import RustyLibc.StepMachine
import RustyLibc.LinuxKernel

/-!
# The x86_64 instructions of the trampolines

A machine for the instructions that `arch/x86_64.rs` writes by hand. Programs
are lists of lines in source order. The `syscall` instruction puts the address
of the next instruction in `rcx` and the flags in `r11`; where the assembler
placed the block is the parameter `addr`. Memory is only read, as 32-bit words,
by `movsxd d, dword ptr [base + 8*index + disp]`. A call has its number in `rax`
and its arguments in `rdi`, `rsi` and `rdx`.
-/

namespace RustyLibc.X86
open Linux StepMachine AsmBlock

inductive Reg where
  | rax | rcx | rdx | rsi | rdi | r8 | r9 | r10 | r11 | r12 | r13 | r14 | r15
  deriving DecidableEq, Repr

inductive Cond where
  | z | nz | s | b
  deriving DecidableEq, Repr

inductive Instr where
  | label (n : ℕ)
  | syscall
  | test (a b : Reg)
  | cmp (a b : Reg)
  | xor (a b : Reg)
  | inc (a : Reg)
  | mov (d s : Reg)
  | movi (d : Reg) (v : BitVec 64)
  | movsxd (d base index : Reg) (disp : BitVec 64)
  | jcc (c : Cond) (n : ℕ) (way : Way)
  | ud2
  deriving DecidableEq, Repr

abbrev Program := List Instr

abbrev Regs := Reg → BitVec 64

def Regs.set (regs : Regs) (r : Reg) (v : BitVec 64) : Regs := fun x => if x = r then v else regs x

structure Flags where
  zf : Bool
  sf : Bool
  cf : Bool
  deriving DecidableEq, Repr

def Cond.holds (fl : Flags) : Cond → Bool
  | .z => fl.zf
  | .nz => !fl.zf
  | .s => fl.sf
  | .b => fl.cf

def Flags.of (v : BitVec 64) (carry : Bool) : Flags := ⟨v == 0, v.msb, carry⟩

/-- What the environment fixes: where each line was placed, how the flags look
as a word, and the memory. -/
structure Machine where
  addr : ℕ → BitVec 64
  rflags : Flags → BitVec 64
  word : BitVec 64 → BitVec 32

structure Cfg (φ : Type) where
  regs : Regs
  flags : Flags
  pc : ℕ
  proc : Proc φ

namespace Nr
def dup2 : BitVec 64 := 33
def clone : BitVec 64 := 56
def execve : BitVec 64 := 59
def exitGroup : BitVec 64 := 231
end Nr

def callOf (regs : Regs) : Call :=
  if regs .rax = Nr.dup2 then .dup2 ((regs .rdi).setWidth 32) ((regs .rsi).setWidth 32)
  else if regs .rax = Nr.execve then .execve (regs .rdi) (regs .rsi) (regs .rdx)
  else if regs .rax = Nr.exitGroup then .exitGroup ((regs .rdi).setWidth 32)
  else if regs .rax = Nr.clone then .clone (regs .rdi)
  else .unknown (regs .rax)

variable {φ : Type}

def exec (M : Machine) (K : Kernel φ) (who : BitVec 64) (prog : Program) (c : Cfg φ) :
    Instr → Cfg φ
  | .label _ => { c with pc := c.pc + 1 }
  | .syscall =>
    match K.serve who c.proc (callOf c.regs) with
    | (p, some v) =>
      { c with
        regs := ((c.regs.set .rax v).set .rcx (M.addr (c.pc + 1))).set .r11 (M.rflags c.flags)
        pc := c.pc + 1
        proc := p }
    | (p, none) => { c with proc := p }
  | .test a b => { c with flags := .of (c.regs a &&& c.regs b) false, pc := c.pc + 1 }
  | .cmp a b =>
    { c with flags := .of (c.regs a - c.regs b) ((c.regs a).ult (c.regs b)), pc := c.pc + 1 }
  | .xor a b =>
    { c with
      regs := c.regs.set a (c.regs a ^^^ c.regs b)
      flags := .of (c.regs a ^^^ c.regs b) false
      pc := c.pc + 1 }
  | .inc a =>
    { c with
      regs := c.regs.set a (c.regs a + 1)
      flags := .of (c.regs a + 1) c.flags.cf
      pc := c.pc + 1 }
  | .mov d s => { c with regs := c.regs.set d (c.regs s), pc := c.pc + 1 }
  | .movi d v => { c with regs := c.regs.set d v, pc := c.pc + 1 }
  | .movsxd d base index disp =>
    { c with
      regs := c.regs.set d ((M.word (c.regs base + 8 * c.regs index + disp)).signExtend 64)
      pc := c.pc + 1 }
  | .jcc cond n way =>
    { c with pc := if cond.holds c.flags then resolve prog (.label n) c.pc way else c.pc + 1 }
  | .ud2 => { c with proc := { c.proc with status := .trapped } }

/-- One instruction of a running process; past the last line the block has
returned to the code around it. -/
def next (M : Machine) (K : Kernel φ) (who : BitVec 64) (prog : Program) (c : Cfg φ) :
    Option (Cfg φ) :=
  if c.proc.status = .running then
    match prog[c.pc]? with
    | some i => some (exec M K who prog c i)
    | none => some { c with proc := { c.proc with status := .returned } }
  else none

theorem next_halted {M : Machine} {K : Kernel φ} {who : BitVec 64} {prog : Program} {c : Cfg φ}
    (h : c.proc.status ≠ .running) : next M K who prog c = none :=
  if_neg h

section Steps

variable {M : Machine} {K : Kernel φ} {who : BitVec 64} {prog : Program}

theorem next_syscall_some {c : Cfg φ} {call : Call} {p : Proc φ} {v : BitVec 64}
    (hrun : c.proc.status = .running) (hpc : prog[c.pc]? = some .syscall)
    (hcall : callOf c.regs = call) (h : K.serve who c.proc call = (p, some v)) :
    next M K who prog c = some
      ⟨((c.regs.set .rax v).set .rcx (M.addr (c.pc + 1))).set .r11 (M.rflags c.flags),
        c.flags, c.pc + 1, p⟩ := by
  rw [next, if_pos hrun, hpc]
  simp only [exec, hcall, h]

theorem next_syscall_none {c : Cfg φ} {call : Call} {p : Proc φ}
    (hrun : c.proc.status = .running) (hpc : prog[c.pc]? = some .syscall)
    (hcall : callOf c.regs = call) (h : K.serve who c.proc call = (p, none)) :
    next M K who prog c = some { c with proc := p } := by
  rw [next, if_pos hrun, hpc]
  simp only [exec, hcall, h]

end Steps

end RustyLibc.X86
