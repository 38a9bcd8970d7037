import RustyLibc.Errno
import RustyLibc.X86Machine
import RustyLibc.RedirectPlan

/-!
# The x86_64 redirect trampoline (`arch/x86_64.rs`, `vfork_execve_redirected`)

`vforkExecveRedirected` is the assembly block line by line and `entryRegs` its
register operands; the registers it does not name hold whatever they held. The
blocks are followed one by one: `clone` (lines 0 to 2), loading a pair (6 to
10), `dup2` (11 to 14), the loop test (15 to 18), `execve` with
`exit_group(127)` behind it (19 to 27), and `exit_group(126)` (29 to 32). The
machine of the child is the one in which `clone` returned zero; the parent
leaves at once, and `result` is what `vfork_exec_redirected` makes of `rax`.
-/

namespace RustyLibc.X86
open Linux StepMachine Process

variable {φ : Type}

def vforkExecveRedirected : Program :=
  [ .syscall,
    .test .rax .rax,
    .jcc .nz 3 .f,
    .test .r9 .r9,
    .jcc .z 2 .f,
    .xor .rcx .rcx,
    .label 8,
    .movsxd .rdi .r15 .rcx 0,
    .movsxd .rsi .r15 .rcx 4,
    .cmp .rdi .rsi,
    .jcc .z 6 .f,
    .movi .rax Nr.dup2,
    .syscall,
    .test .rax .rax,
    .jcc .s 4 .f,
    .label 6,
    .inc .rcx,
    .cmp .rcx .r9,
    .jcc .b 8 .b,
    .label 2,
    .mov .rdi .r12,
    .mov .rsi .r13,
    .mov .rdx .r14,
    .movi .rax Nr.execve,
    .syscall,
    .movi .rax Nr.exitGroup,
    .movi .rdi 127,
    .syscall,
    .ud2,
    .label 4,
    .movi .rax Nr.exitGroup,
    .movi .rdi 126,
    .syscall,
    .ud2,
    .label 3 ]

def entryRegs (regs : Regs) (flags : BitVec 64) (x : ExecArgs) (rs : RedirectSlice) : Regs
  | .rax => Nr.clone
  | .rdi => flags
  | .rsi => 0
  | .rdx => 0
  | .r10 => 0
  | .r8 => 0
  | .r12 => x.path
  | .r13 => x.argv
  | .r14 => x.envp
  | .r15 => rs.base
  | .r9 => BitVec.ofNat 64 rs.list.length
  | r => regs r

def start (regs : Regs) (fl : Flags) (flags : BitVec 64) (x : ExecArgs) (rs : RedirectSlice)
    (st : KState φ) : Cfg φ :=
  ⟨entryRegs regs flags x rs, fl, 0, ⟨st, [], .running⟩⟩

structure Kept (x : ExecArgs) (rs : RedirectSlice) (regs : Regs) : Prop where
  r12 : regs .r12 = x.path
  r13 : regs .r13 = x.argv
  r14 : regs .r14 = x.envp
  r15 : regs .r15 = rs.base
  r9 : regs .r9 = BitVec.ofNat 64 rs.list.length

theorem setWidth_signExtend (a : BitVec 32) : (a.signExtend 64).setWidth 32 = a := by
  ext i hi
  have hi' : i < 64 := by omega
  rw [BitVec.getElem_setWidth, BitVec.getLsbD_signExtend]
  simp [hi, hi']

theorem signExtend_sub_beq_zero (a b : BitVec 32) :
    (a.signExtend 64 - b.signExtend 64 == 0) = decide (a = b) := by
  rw [Bool.eq_iff_iff, beq_iff_eq, decide_eq_true_eq]
  constructor
  · intro h
    have heq : a.signExtend 64 = b.signExtend 64 := by
      simpa using BitVec.sub_eq_iff_eq_add.mp h
    rw [← setWidth_signExtend a, heq, setWidth_signExtend]
  · intro heq
    obtain rfl := heq
    simp

def dup2Call (r : Redirect) : Call := .dup2 r.oldfd r.newfd

abbrev child (M : Machine) (K : Kernel φ) : Cfg φ → Option (Cfg φ) :=
  next M K 0 vforkExecveRedirected

section Blocks

variable {M : Machine} {K : Kernel φ} {x : ExecArgs} {rs : RedirectSlice}

theorem fail_block (regs : Regs) (fl : Flags) (st : KState φ) (calls : List Call) :
    EndsWith (child M K) Cfg.proc ⟨regs, fl, 29, ⟨st, calls, .running⟩⟩ (failEnding st calls) := by
  have hrun : run (child M K) 4 ⟨regs, fl, 29, ⟨st, calls, .running⟩⟩ =
      ⟨(regs.set .rax Nr.exitGroup).set .rdi 126, fl, 32, failEnding st calls⟩ := rfl
  exact ⟨_, ⟨.of_run hrun, next_halted (by simp [failEnding])⟩, rfl⟩

def execTail : Program :=
  [ .syscall,
    .movi .rax Nr.exitGroup,
    .movi .rdi 127,
    .syscall ]

/-- `execve` with `exit_group(127)` behind it, wherever a program has them. -/
theorem exec_tail {who : BitVec 64} {prog : Program} {pc : ℕ} (hcode : execTail <+: prog.drop pc)
    {regs : Regs} (hcall : callOf regs = x.call) (fl : Flags) (st : KState φ)
    (calls : List Call) :
    EndsWith (next M K who prog) Cfg.proc ⟨regs, fl, pc, ⟨st, calls, .running⟩⟩
      (execEnding K x st calls) := by
  obtain ⟨rest, hrest⟩ := hcode
  have hat : ∀ i, prog[pc + i]? = (execTail ++ rest)[i]? := fun i => by
    rw [hrest, List.getElem?_drop]
  refine endsWith_execEnding (fun t => next_halted) (fun hx => ?_) fun e hx => ?_
  · exact ⟨_, .single (next_syscall_none rfl (hat 0) hcall (serve_execve_none hx)), rfl⟩
  · obtain ⟨regs', hexec⟩ : ∃ regs' : Regs, Step (next M K who prog)
        ⟨regs, fl, pc, ⟨st, calls, .running⟩⟩
        ⟨regs', fl, pc + 1, ⟨st, calls ++ [x.call], .running⟩⟩ :=
      ⟨_, next_syscall_some rfl (hat 0) hcall (serve_execve_some hx)⟩
    have hnumber : Step (next M K who prog)
        ⟨regs', fl, pc + 1, ⟨st, calls ++ [x.call], .running⟩⟩
        ⟨regs'.set .rax Nr.exitGroup, fl, pc + 2, ⟨st, calls ++ [x.call], .running⟩⟩ := by
      rw [Step, next, if_pos rfl, hat 1]
      rfl
    have hstatus : Step (next M K who prog)
        ⟨regs'.set .rax Nr.exitGroup, fl, pc + 2, ⟨st, calls ++ [x.call], .running⟩⟩
        ⟨(regs'.set .rax Nr.exitGroup).set .rdi 127, fl, pc + 3,
          ⟨st, calls ++ [x.call], .running⟩⟩ := by
      rw [Step, next, if_pos rfl, hat 2]
      rfl
    have hexit : Step (next M K who prog)
        ⟨(regs'.set .rax Nr.exitGroup).set .rdi 127, fl, pc + 3,
          ⟨st, calls ++ [x.call], .running⟩⟩
        ⟨(regs'.set .rax Nr.exitGroup).set .rdi 127, fl, pc + 3,
          ⟨st, calls ++ [x.call] ++ [.exitGroup 127], .exited 127⟩⟩ :=
      next_syscall_none rfl (hat 3) rfl rfl
    exact ⟨_, (((Relation.ReflTransGen.single hexec).tail hnumber).tail hstatus).tail hexit,
      by simp⟩

theorem exec_block {regs : Regs} (hk : Kept x rs regs) (fl : Flags) (st : KState φ)
    (calls : List Call) :
    EndsWith (child M K) Cfg.proc ⟨regs, fl, 19, ⟨st, calls, .running⟩⟩
      (execEnding K x st calls) := by
  obtain ⟨regs', hregs', hcall⟩ : ∃ regs' : Regs, Reaches (child M K)
      ⟨regs, fl, 19, ⟨st, calls, .running⟩⟩ ⟨regs', fl, 24, ⟨st, calls, .running⟩⟩ ∧
      callOf regs' = x.call := by
    refine ⟨_, .of_run (n := 5) rfl, ?_⟩
    rw [ExecArgs.call, ← hk.r12, ← hk.r13, ← hk.r14]
    rfl
  exact (exec_tail ⟨_, rfl⟩ hcall fl st calls).of_reaches hregs'

theorem load_block (hword : M.word = rs.word) {regs : Regs} (hk : Kept x rs regs) {i : ℕ}
    (hi : regs .rcx = BitVec.ofNat 64 i) {r : Redirect} (hr : rs.list[i]? = some r) (fl : Flags)
    (st : KState φ) (calls : List Call) :
    ∃ regs' fl', Reaches (child M K)
        ⟨regs, fl, 6, ⟨st, calls, .running⟩⟩
        ⟨regs', fl', if r.oldfd = r.newfd then 15 else 11, ⟨st, calls, .running⟩⟩ ∧
      Kept x rs regs' ∧ regs' .rcx = regs .rcx ∧
      callOf (regs'.set .rax Nr.dup2) = .dup2 r.oldfd r.newfd := by
  have hrun : run (child M K) 5 ⟨regs, fl, 6, ⟨st, calls, .running⟩⟩ =
      let oldfd := (M.word (regs .r15 + 8 * regs .rcx + 0)).signExtend 64
      let newfd := (M.word (regs .r15 + 8 * regs .rcx + 4)).signExtend 64
      ⟨(regs.set .rdi oldfd).set .rsi newfd, .of (oldfd - newfd) (oldfd.ult newfd),
        if oldfd - newfd == 0 then 15 else 11, ⟨st, calls, .running⟩⟩ := rfl
  have hold : M.word (regs .r15 + 8 * regs .rcx + 0) = r.oldfd := by
    rw [← rs.oldfd_at i r hr, hword, hk.r15, hi]
    exact congrArg _ (BitVec.add_zero _)
  have hnew : M.word (regs .r15 + 8 * regs .rcx + 4) = r.newfd := by
    rw [hword, hk.r15, hi, rs.newfd_at i r hr]
  simp only [hold, hnew, signExtend_sub_beq_zero, decide_eq_true_eq] at hrun
  refine ⟨_, _, Reaches.of_run hrun, ⟨hk.r12, hk.r13, hk.r14, hk.r15, hk.r9⟩, rfl, ?_⟩
  change Call.dup2 ((r.oldfd.signExtend 64).setWidth 32) ((r.newfd.signExtend 64).setWidth 32) = _
  rw [setWidth_signExtend, setWidth_signExtend]

theorem sign_block (regs : Regs) (fl : Flags) (p : KState φ) (calls : List Call) :
    ∃ fl', Reaches (child M K) ⟨regs, fl, 13, ⟨p, calls, .running⟩⟩
      ⟨regs, fl', if (regs .rax).msb then 29 else 15, ⟨p, calls, .running⟩⟩ := by
  have hrun : run (child M K) 2 ⟨regs, fl, 13, ⟨p, calls, .running⟩⟩ =
      ⟨regs, .of (regs .rax &&& regs .rax) false, if (regs .rax &&& regs .rax).msb then 29 else 15,
        ⟨p, calls, .running⟩⟩ := rfl
  rw [BitVec.and_self] at hrun
  exact ⟨_, Reaches.of_run hrun⟩

/-- Lines 11 to 14: `dup2`, after which the index is gone. -/
theorem dup2_block {regs : Regs} (hk : Kept x rs regs) {r : Redirect}
    (hcall : callOf (regs.set .rax Nr.dup2) = .dup2 r.oldfd r.newfd) (st : KState φ) (fl : Flags)
    (calls : List Call) :
    ∃ regs' fl', Kept x rs regs' ∧ regs' .rcx = M.addr 13 ∧
      Reaches (child M K) ⟨regs, fl, 11, ⟨st, calls, .running⟩⟩
        (match redirect K st r with
          | .ok st' => ⟨regs', fl', 15, ⟨st', calls ++ [.dup2 r.oldfd r.newfd], .running⟩⟩
          | .error _ => ⟨regs', fl', 29, ⟨st, calls ++ [.dup2 r.oldfd r.newfd], .running⟩⟩) := by
  have hmov : Reaches (child M K) ⟨regs, fl, 11, ⟨st, calls, .running⟩⟩
      ⟨regs.set .rax Nr.dup2, fl, 12, ⟨st, calls, .running⟩⟩ := .of_run (n := 1) rfl
  let after (v : BitVec 64) : Regs :=
    (((regs.set .rax Nr.dup2).set .rax v).set .rcx (M.addr 13)).set .r11 (M.rflags fl)
  have hafter (v : BitVec 64) : Kept x rs (after v) := ⟨hk.r12, hk.r13, hk.r14, hk.r15, hk.r9⟩
  cases hr : redirect K st r with
  | ok st' =>
    have hstep : Step (child M K)
        ⟨regs.set .rax Nr.dup2, fl, 12, ⟨st, calls, .running⟩⟩
        ⟨after (r.newfd.setWidth 64), fl, 13,
          ⟨st', calls ++ [.dup2 r.oldfd r.newfd], .running⟩⟩ :=
      next_syscall_some rfl rfl hcall (serve_dup2_ok hr)
    obtain ⟨fl', hsign⟩ := sign_block (M := M) (K := K) (after (r.newfd.setWidth 64)) fl st'
      (calls ++ [.dup2 r.oldfd r.newfd])
    have hmsb : (after (r.newfd.setWidth 64) .rax).msb = false := msb_fd r.newfd
    rw [hmsb] at hsign
    exact ⟨_, fl', hafter _, rfl, (hmov.tail hstep).trans hsign⟩
  | error e =>
    have hstep : Step (child M K)
        ⟨regs.set .rax Nr.dup2, fl, 12, ⟨st, calls, .running⟩⟩
        ⟨after e.raw, fl, 13, ⟨st, calls ++ [.dup2 r.oldfd r.newfd], .running⟩⟩ :=
      next_syscall_some rfl rfl hcall (serve_dup2_error hr)
    obtain ⟨fl', hsign⟩ := sign_block (M := M) (K := K) (after e.raw) fl st
      (calls ++ [.dup2 r.oldfd r.newfd])
    have hmsb : (after e.raw .rax).msb = true := e.msb_raw
    rw [hmsb] at hsign
    exact ⟨_, fl', hafter _, rfl, (hmov.tail hstep).trans hsign⟩

theorem test_block {regs : Regs} (hk : Kept x rs regs) (fl : Flags) (st : KState φ)
    (calls : List Call) :
    ∃ regs' fl', Kept x rs regs' ∧ regs' .rcx = regs .rcx + 1 ∧
      Reaches (child M K) ⟨regs, fl, 15, ⟨st, calls, .running⟩⟩
        ⟨regs', fl', if (regs .rcx + 1).toNat < rs.list.length then 6 else 19,
          ⟨st, calls, .running⟩⟩ := by
  have hrun : run (child M K) 4 ⟨regs, fl, 15, ⟨st, calls, .running⟩⟩ =
      ⟨regs.set .rcx (regs .rcx + 1),
        .of (regs .rcx + 1 - regs .r9) ((regs .rcx + 1).ult (regs .r9)),
        if (regs .rcx + 1).ult (regs .r9) then 6 else 19, ⟨st, calls, .running⟩⟩ := rfl
  have hult : (regs .rcx + 1).ult (regs .r9) = decide ((regs .rcx + 1).toNat < rs.list.length) := by
    have hsize := rs.size_lt
    rw [hk.r9, BitVec.ult, BitVec.toNat_ofNat, Nat.mod_eq_of_lt (by omega)]
  simp only [hult, decide_eq_true_eq] at hrun
  exact ⟨regs.set .rcx (regs .rcx + 1), _, ⟨hk.r12, hk.r13, hk.r14, hk.r15, hk.r9⟩, rfl,
    Reaches.of_run hrun⟩

/-- The child is about to treat the entry at index `i`, or to leave the loop. -/
def Ready (x : ExecArgs) (rs : RedirectSlice) (i : ℕ) (st : KState φ) (calls : List Call)
    (c : Cfg φ) : Prop :=
  ∃ regs fl, c = ⟨regs, fl, if i < rs.list.length then 6 else 19, ⟨st, calls, .running⟩⟩ ∧
    Kept x rs regs ∧ (i < rs.list.length → regs .rcx = BitVec.ofNat 64 i)

theorem ready_of_test {regs : Regs} (hk : Kept x rs regs) (fl : Flags) (st : KState φ)
    (calls : List Call) {i : ℕ} (hi : (regs .rcx + 1).toNat = i) :
    ∃ c, Reaches (child M K) ⟨regs, fl, 15, ⟨st, calls, .running⟩⟩ c ∧
      Ready x rs i st calls c := by
  obtain ⟨regs', fl', hk', hrcx, hreach⟩ := test_block (M := M) (K := K) hk fl st calls
  rw [hi] at hreach
  refine ⟨_, hreach, regs', fl', rfl, hk', fun _ => ?_⟩
  rw [hrcx, ← hi, BitVec.ofNat_toNat, BitVec.setWidth_eq]

theorem ready_done {i : ℕ} {st : KState φ} {calls : List Call} {c : Cfg φ}
    (hc : Ready x rs i st calls c) (hi : rs.list.length ≤ i) :
    EndsWith (child M K) Cfg.proc c (execEnding K x st calls) := by
  obtain ⟨regs, fl, rfl, hk, -⟩ := hc
  rw [if_neg (by omega)]
  exact exec_block hk fl st calls

theorem ready_noop (hword : M.word = rs.word) {i : ℕ} {st : KState φ} {calls : List Call}
    {c : Cfg φ} (hc : Ready x rs i st calls c) {r : Redirect} (hr : rs.list[i]? = some r)
    (heq : r.oldfd = r.newfd) :
    ∃ d, Reaches (child M K) c d ∧ Ready x rs (i + 1) st calls d := by
  obtain ⟨hlt, -⟩ := List.getElem?_eq_some_iff.mp hr
  obtain ⟨regs, fl, rfl, hk, hrcx⟩ := hc
  obtain ⟨regs', fl', hload, hk', hrcx', -⟩ := load_block hword hk (hrcx hlt) hr fl st calls
  rw [if_pos heq] at hload
  have hsize := rs.size_lt
  have hnext : (regs' .rcx + 1).toNat = i + 1 := by
    have hadd : BitVec.ofNat 64 i + 1 = BitVec.ofNat 64 (i + 1) := (BitVec.ofNat_add i 1).symm
    rw [hrcx', hrcx hlt, hadd, BitVec.toNat_ofNat, Nat.mod_eq_of_lt (by omega)]
  obtain ⟨d, htest, hd⟩ := ready_of_test hk' fl' st calls hnext
  rw [if_pos hlt]
  exact ⟨d, hload.trans htest, hd⟩

/-- Where an attempt at the pair `w` leads: a success restarts the loop at the
index the return address left in `rcx`, a failure ends the child. -/
def Attempt (M : Machine) (K : Kernel φ) (x : ExecArgs) (rs : RedirectSlice) (st : KState φ)
    (calls : List Call) (c : Cfg φ) (w : Redirect) : Prop :=
  match redirect K st w with
  | .ok st' => ∃ d, Reaches (child M K) c d ∧
      Ready x rs (M.addr 13 + 1).toNat st' (calls ++ [dup2Call w]) d
  | .error _ => EndsWith (child M K) Cfg.proc c (failEnding st (calls ++ [dup2Call w]))

theorem Attempt.of_reaches {st : KState φ} {calls : List Call} {c d : Cfg φ} {w : Redirect}
    (hcd : Reaches (child M K) c d) (h : Attempt M K x rs st calls d w) :
    Attempt M K x rs st calls c w := by
  unfold Attempt at h ⊢
  cases hw : redirect K st w with
  | ok st' =>
    rw [hw] at h
    obtain ⟨e, hde, he⟩ := h
    exact ⟨e, hcd.trans hde, he⟩
  | error e =>
    rw [hw] at h
    exact h.of_reaches hcd

theorem ready_real (hword : M.word = rs.word) {i : ℕ} {st : KState φ} {calls : List Call}
    {c : Cfg φ} (hc : Ready x rs i st calls c) {r : Redirect} (hr : rs.list[i]? = some r)
    (hne : r.oldfd ≠ r.newfd) : Attempt M K x rs st calls c r := by
  obtain ⟨hlt, -⟩ := List.getElem?_eq_some_iff.mp hr
  obtain ⟨regs, fl, rfl, hk, hrcx⟩ := hc
  obtain ⟨regs', fl', hload, hk', -, hcall⟩ := load_block hword hk (hrcx hlt) hr fl st calls
  obtain ⟨regs₁, fl₁, hk₁, hrcx₁, hdup⟩ := dup2_block (M := M) (K := K) hk' hcall st fl' calls
  rw [if_neg hne] at hload
  rw [if_pos hlt]
  refine Attempt.of_reaches hload ?_
  unfold Attempt
  cases hred : redirect K st r with
  | ok st' =>
    rw [hred] at hdup
    obtain ⟨d, htest, hd⟩ := ready_of_test (M := M) (K := K) hk₁ fl₁ st' (calls ++ [dup2Call r]) rfl
    rw [hrcx₁] at hd
    exact ⟨d, hdup.trans htest, hd⟩
  | error e =>
    rw [hred] at hdup
    exact (fail_block regs₁ fl₁ st (calls ++ [dup2Call r])).of_reaches hdup

theorem ready_pass (hword : M.word = rs.word) {i : ℕ} {st : KState φ} {calls : List Call}
    {c : Cfg φ} (hc : Ready x rs i st calls c) :
    match reals (rs.list.drop i) with
    | [] => EndsWith (child M K) Cfg.proc c (execEnding K x st calls)
    | w :: _ => Attempt M K x rs st calls c w := by
  induction hn : rs.list.length - i generalizing i c with
  | zero =>
    rw [List.drop_of_length_le (by omega)]
    exact ready_done hc (by omega)
  | succ n ih =>
    have hlt : i < rs.list.length := by omega
    have hr : rs.list[i]? = some rs.list[i] := List.getElem?_eq_getElem hlt
    rw [List.drop_eq_getElem_cons hlt]
    by_cases heq : rs.list[i].oldfd = rs.list[i].newfd
    · obtain ⟨d, hcd, hd⟩ := ready_noop (M := M) (K := K) hword hc hr heq
      have hpass := ih hd (by omega)
      rw [reals_cons_noop _ heq]
      cases hreals : reals (rs.list.drop (i + 1)) with
      | nil =>
        rw [hreals] at hpass
        exact hpass.of_reaches hcd
      | cons w ws =>
        rw [hreals] at hpass
        exact hpass.of_reaches hcd
    · rw [reals_cons_real _ heq]
      exact ready_real hword hc hr heq

variable (x rs) in
theorem clone_block (who : BitVec 64) (regs : Regs) (fl : Flags) (flags : BitVec 64)
    (st : KState φ) :
    ∃ regs' fl', Kept x rs regs' ∧ regs' .rax = who ∧
      Reaches (next M K who vforkExecveRedirected) (start regs fl flags x rs st)
        ⟨regs', fl', if who = 0 then 3 else 34, ⟨st, [], .running⟩⟩ := by
  have hrun : run (next M K who vforkExecveRedirected) 3 (start regs fl flags x rs st) =
      ⟨(((entryRegs regs flags x rs).set .rax who).set .rcx (M.addr 1)).set .r11 (M.rflags fl),
        .of (who &&& who) false, if !(who &&& who == 0) then 34 else 3, ⟨st, [], .running⟩⟩ := rfl
  have hpc : (if !(who &&& who == 0) then 34 else 3) = if who = 0 then 3 else 34 := by
    by_cases hwho : who = 0 <;> simp [hwho]
  rw [hpc] at hrun
  exact ⟨_, _, ⟨rfl, rfl, rfl, rfl, rfl⟩, rfl, Reaches.of_run hrun⟩

variable (x rs) in
theorem ready_start (regs : Regs) (fl : Flags) (flags : BitVec 64) (st : KState φ) :
    ∃ c, Reaches (child M K) (start regs fl flags x rs st) c ∧ Ready x rs 0 st [] c := by
  obtain ⟨regs₀, fl₀, hk, -, hclone⟩ :=
    clone_block (M := M) (K := K) x rs 0 regs fl flags st
  have hrun : run (child M K) 2 ⟨regs₀, fl₀, 3, ⟨st, [], .running⟩⟩ =
      ⟨regs₀, .of (regs₀ .r9 &&& regs₀ .r9) false, if regs₀ .r9 &&& regs₀ .r9 == 0 then 19 else 5,
        ⟨st, [], .running⟩⟩ := rfl
  have hsize := rs.size_lt
  have hzero : (regs₀ .r9 &&& regs₀ .r9 == 0) = decide (rs.list.length = 0) := by
    rw [BitVec.and_self, hk.r9, Bool.eq_iff_iff, beq_iff_eq, decide_eq_true_eq,
      ← BitVec.toNat_inj, BitVec.toNat_ofNat, Nat.mod_eq_of_lt (by omega)]
    rfl
  simp only [hzero, decide_eq_true_eq] at hrun
  have hreach := hclone.trans (Reaches.of_run hrun)
  by_cases hlen : rs.list.length = 0
  · rw [if_pos hlen] at hreach
    exact ⟨_, hreach, _, _, by rw [if_neg (by omega)], hk, fun h => absurd h (by omega)⟩
  · rw [if_neg hlen] at hreach
    have hxor : Reaches (child M K)
        ⟨regs₀, .of (regs₀ .r9 &&& regs₀ .r9) false, 5, ⟨st, [], .running⟩⟩
        ⟨regs₀.set .rcx (regs₀ .rcx ^^^ regs₀ .rcx), .of (regs₀ .rcx ^^^ regs₀ .rcx) false, 6,
          ⟨st, [], .running⟩⟩ := .of_run (n := 1) rfl
    have hk' : Kept x rs (regs₀.set .rcx (regs₀ .rcx ^^^ regs₀ .rcx)) :=
      ⟨hk.r12, hk.r13, hk.r14, hk.r15, hk.r9⟩
    exact ⟨_, hreach.trans hxor, _, _, by rw [if_pos (by omega)], hk', fun _ => BitVec.xor_self⟩

def result (c : Cfg φ) : Except Errno (BitVec 32) := fromRetI32 (c.regs .rax)

theorem parent_returns {who : BitVec 64} (hwho : who ≠ 0) (regs : Regs) (fl : Flags)
    (flags : BitVec 64) (st : KState φ) :
    EndsWith (next M K who vforkExecveRedirected) (fun c => (c.proc, result c))
      (start regs fl flags x rs st) (⟨st, [], .returned⟩, fromRetI32 who) := by
  obtain ⟨regs', fl', -, hrax, hclone⟩ :=
    clone_block (M := M) (K := K) x rs who regs fl flags st
  rw [if_neg hwho] at hclone
  have hleave : Reaches (next M K who vforkExecveRedirected)
      ⟨regs', fl', 34, ⟨st, [], .running⟩⟩ ⟨regs', fl', 35, ⟨st, [], .returned⟩⟩ :=
    .of_run (n := 2) rfl
  refine ⟨_, ⟨hclone.trans hleave, next_halted (by simp)⟩, ?_⟩
  simp [result, hrax]

end Blocks

end RustyLibc.X86
