import RustyLibc.Aarch64Machine
import RustyLibc.Errno
import RustyLibc.RedirectPlan

/-!
# The aarch64 redirect trampoline (`arch/aarch64.rs`, `vfork_execve_redirected`)

The loop keeps its index in `x14`, the slice in `x12` and `x13` and the
arguments of `execve` in `x9` to `x11`; none of them is touched by `svc`. The
blocks are `clone` (lines 0 and 1), loading a pair (4 to 9), `dup3` standing in
for `dup2` (10 to 14), the loop test (15 to 18), `execve` with
`exit_group(127)` behind it (19 to 27), and `exit_group(126)` (29 to 32). One
turn of the loop is one step of the plan, so the child carries out the plan
whatever the list is.
-/

namespace RustyLibc.Aarch64
open Linux StepMachine Process

variable {φ : Type}

def vforkExecveRedirected : Program :=
  [ .svc,
    .cbnz .x0 3 .f,
    .cbz .x13 2 .f,
    .movi .x14 0,
    .label 1,
    .addLsl .x15 .x12 .x14 3,
    .ldrW .x0 .x15 0,
    .ldrW .x1 .x15 4,
    .cmpW .x0 .x1,
    .bcond .eq 6 .f,
    .movi .x8 Nr.dup3,
    .movi .x2 0,
    .svc,
    .cmpi .x0 0,
    .bcond .lt 4 .f,
    .label 6,
    .addi .x14 .x14 1,
    .cmp .x14 .x13,
    .bcond .lt 1 .b,
    .label 2,
    .mov .x0 .x9,
    .mov .x1 .x10,
    .mov .x2 .x11,
    .movi .x8 Nr.execve,
    .svc,
    .movi .x8 Nr.exitGroup,
    .movi .x0 127,
    .svc,
    .brk,
    .label 4,
    .movi .x8 Nr.exitGroup,
    .movi .x0 126,
    .svc,
    .brk,
    .label 3 ]

def entryRegs (regs : Regs) (flags : BitVec 64) (x : ExecArgs) (rs : RedirectSlice) : Regs
  | .x8 => Nr.clone
  | .x0 => flags
  | .x1 => 0
  | .x2 => 0
  | .x3 => 0
  | .x4 => 0
  | .x9 => x.path
  | .x10 => x.argv
  | .x11 => x.envp
  | .x12 => rs.base
  | .x13 => BitVec.ofNat 64 rs.list.length
  | r => regs r

def start (regs : Regs) (fl : Flags) (flags : BitVec 64) (x : ExecArgs) (rs : RedirectSlice)
    (st : KState φ) : Cfg φ :=
  ⟨entryRegs regs flags x rs, fl, 0, ⟨st, [], .running⟩⟩

structure Kept (x : ExecArgs) (rs : RedirectSlice) (regs : Regs) : Prop where
  x9 : regs .x9 = x.path
  x10 : regs .x10 = x.argv
  x11 : regs .x11 = x.envp
  x12 : regs .x12 = rs.base
  x13 : regs .x13 = BitVec.ofNat 64 rs.list.length

def dup3Call (r : Redirect) : Call := .dup3 r.oldfd r.newfd 0

abbrev child (rs : RedirectSlice) (K : Kernel φ) : Cfg φ → Option (Cfg φ) :=
  next rs.word K 0 vforkExecveRedirected

theorem shiftLeft_three (v : BitVec 64) : v <<< 3 = 8 * v := by
  apply BitVec.eq_of_toNat_eq
  rw [BitVec.toNat_shiftLeft, BitVec.toNat_mul, Nat.shiftLeft_eq, Nat.mul_comm]
  rfl

section Blocks

variable {K : Kernel φ} {x : ExecArgs} {rs : RedirectSlice}

theorem fail_block (regs : Regs) (fl : Flags) (st : KState φ) (calls : List Call) :
    EndsWith (child rs K) Cfg.proc ⟨regs, fl, 29, ⟨st, calls, .running⟩⟩ (failEnding st calls) := by
  have hrun : run (child rs K) 4 ⟨regs, fl, 29, ⟨st, calls, .running⟩⟩ =
      ⟨(regs.set .x8 Nr.exitGroup).set .x0 126, fl, 32, failEnding st calls⟩ := rfl
  exact ⟨_, ⟨.of_run hrun, next_halted (by simp [failEnding])⟩, rfl⟩

def execTail : Program :=
  [ .svc,
    .movi .x8 Nr.exitGroup,
    .movi .x0 127,
    .svc ]

/-- `execve` with `exit_group(127)` behind it, wherever a program has them. -/
theorem exec_tail {word : BitVec 64 → BitVec 32} {who : BitVec 64} {prog : Program} {pc : ℕ}
    (hcode : execTail <+: prog.drop pc) {regs : Regs} (hcall : callOf regs = x.call) (fl : Flags)
    (st : KState φ) (calls : List Call) :
    EndsWith (next word K who prog) Cfg.proc ⟨regs, fl, pc, ⟨st, calls, .running⟩⟩
      (execEnding K x st calls) := by
  obtain ⟨rest, hrest⟩ := hcode
  have hat : ∀ i, prog[pc + i]? = (execTail ++ rest)[i]? := fun i => by
    rw [hrest, List.getElem?_drop]
  refine endsWith_execEnding (fun t => next_halted) (fun hx => ?_) fun e hx => ?_
  · exact ⟨_, .single (next_svc_none rfl (hat 0) hcall (serve_execve_none hx)), rfl⟩
  · have hexec : Step (next word K who prog) ⟨regs, fl, pc, ⟨st, calls, .running⟩⟩
        ⟨regs.set .x0 e.raw, fl, pc + 1, ⟨st, calls ++ [x.call], .running⟩⟩ :=
      next_svc_some rfl (hat 0) hcall (serve_execve_some hx)
    have hnumber : Step (next word K who prog)
        ⟨regs.set .x0 e.raw, fl, pc + 1, ⟨st, calls ++ [x.call], .running⟩⟩
        ⟨(regs.set .x0 e.raw).set .x8 Nr.exitGroup, fl, pc + 2,
          ⟨st, calls ++ [x.call], .running⟩⟩ := by
      rw [Step, next, if_pos rfl, hat 1]
      rfl
    have hstatus : Step (next word K who prog)
        ⟨(regs.set .x0 e.raw).set .x8 Nr.exitGroup, fl, pc + 2,
          ⟨st, calls ++ [x.call], .running⟩⟩
        ⟨((regs.set .x0 e.raw).set .x8 Nr.exitGroup).set .x0 127, fl, pc + 3,
          ⟨st, calls ++ [x.call], .running⟩⟩ := by
      rw [Step, next, if_pos rfl, hat 2]
      rfl
    have hexit : Step (next word K who prog)
        ⟨((regs.set .x0 e.raw).set .x8 Nr.exitGroup).set .x0 127, fl, pc + 3,
          ⟨st, calls ++ [x.call], .running⟩⟩
        ⟨((regs.set .x0 e.raw).set .x8 Nr.exitGroup).set .x0 127, fl, pc + 3,
          ⟨st, calls ++ [x.call] ++ [.exitGroup 127], .exited 127⟩⟩ :=
      next_svc_none rfl (hat 3) rfl rfl
    exact ⟨_, (((Relation.ReflTransGen.single hexec).tail hnumber).tail hstatus).tail hexit,
      by simp⟩

theorem exec_block {regs : Regs} (hk : Kept x rs regs) (fl : Flags) (st : KState φ)
    (calls : List Call) :
    EndsWith (child rs K) Cfg.proc ⟨regs, fl, 19, ⟨st, calls, .running⟩⟩
      (execEnding K x st calls) := by
  obtain ⟨regs', hregs', hcall⟩ : ∃ regs' : Regs, Reaches (child rs K)
      ⟨regs, fl, 19, ⟨st, calls, .running⟩⟩ ⟨regs', fl, 24, ⟨st, calls, .running⟩⟩ ∧
      callOf regs' = x.call := by
    refine ⟨_, .of_run (n := 5) rfl, ?_⟩
    rw [ExecArgs.call, ← hk.x9, ← hk.x10, ← hk.x11]
    rfl
  exact (exec_tail ⟨_, rfl⟩ hcall fl st calls).of_reaches hregs'

theorem load_block {regs : Regs} (hk : Kept x rs regs) {i : ℕ}
    (hi : regs .x14 = BitVec.ofNat 64 i) {r : Redirect} (hr : rs.list[i]? = some r) (fl : Flags)
    (st : KState φ) (calls : List Call) :
    ∃ regs' fl', Reaches (child rs K) ⟨regs, fl, 4, ⟨st, calls, .running⟩⟩
        ⟨regs', fl', if r.oldfd = r.newfd then 15 else 10, ⟨st, calls, .running⟩⟩ ∧
      Kept x rs regs' ∧ regs' .x14 = regs .x14 ∧
      callOf ((regs'.set .x8 Nr.dup3).set .x2 0) = dup3Call r := by
  let at₀ := regs .x12 + regs .x14 <<< 3
  have hrun : run (child rs K) 6 ⟨regs, fl, 4, ⟨st, calls, .running⟩⟩ =
      let oldfd := (rs.word (at₀ + 0)).setWidth 64
      let newfd := (rs.word (at₀ + 4)).setWidth 64
      ⟨((regs.set .x15 at₀).set .x0 oldfd).set .x1 newfd,
        .compare (oldfd.setWidth 32) (newfd.setWidth 32),
        if Cond.eq.holds (.compare (oldfd.setWidth 32) (newfd.setWidth 32)) then 15 else 10,
        ⟨st, calls, .running⟩⟩ := rfl
  have hat : at₀ = rs.base + 8 * BitVec.ofNat 64 i := by
    rw [← hk.x12, ← hi, ← shiftLeft_three]
  have hold : rs.word (at₀ + 0) = r.oldfd := by
    rw [← rs.oldfd_at i r hr, hat]
    exact congrArg _ (BitVec.add_zero _)
  have hnew : rs.word (at₀ + 4) = r.newfd := by
    rw [← rs.newfd_at i r hr, hat]
  have hlow (a : BitVec 32) : (a.setWidth 64).setWidth 32 = a := by
    simp
  simp only [hold, hnew, hlow, compare_eq, decide_eq_true_eq] at hrun
  refine ⟨_, _, Reaches.of_run hrun, ⟨hk.x9, hk.x10, hk.x11, hk.x12, hk.x13⟩, rfl, ?_⟩
  change Call.dup3 ((r.oldfd.setWidth 64).setWidth 32) ((r.newfd.setWidth 64).setWidth 32) 0 = _
  rw [hlow, hlow]
  rfl

theorem sign_block (regs : Regs) (fl : Flags) (st : KState φ) (calls : List Call) :
    ∃ fl', Reaches (child rs K) ⟨regs, fl, 13, ⟨st, calls, .running⟩⟩
      ⟨regs, fl', if (regs .x0).msb then 29 else 15, ⟨st, calls, .running⟩⟩ := by
  have hrun : run (child rs K) 2 ⟨regs, fl, 13, ⟨st, calls, .running⟩⟩ =
      ⟨regs, .compare (regs .x0) 0, if Cond.lt.holds (.compare (regs .x0) 0) then 29 else 15,
        ⟨st, calls, .running⟩⟩ := rfl
  rw [compare_lt_zero] at hrun
  exact ⟨_, Reaches.of_run hrun⟩

theorem dup3_block {regs : Regs} (hk : Kept x rs regs) {r : Redirect}
    (hcall : callOf ((regs.set .x8 Nr.dup3).set .x2 0) = dup3Call r) (hne : r.oldfd ≠ r.newfd)
    (st : KState φ) (fl : Flags) (calls : List Call) :
    ∃ regs' fl', Kept x rs regs' ∧ regs' .x14 = regs .x14 ∧
      Reaches (child rs K) ⟨regs, fl, 10, ⟨st, calls, .running⟩⟩
        (match redirect K st r with
          | .ok st' => ⟨regs', fl', 15, ⟨st', calls ++ [dup3Call r], .running⟩⟩
          | .error _ => ⟨regs', fl', 29, ⟨st, calls ++ [dup3Call r], .running⟩⟩) := by
  have hmov : Reaches (child rs K) ⟨regs, fl, 10, ⟨st, calls, .running⟩⟩
      ⟨(regs.set .x8 Nr.dup3).set .x2 0, fl, 12, ⟨st, calls, .running⟩⟩ := .of_run (n := 2) rfl
  let after (v : BitVec 64) : Regs := ((regs.set .x8 Nr.dup3).set .x2 0).set .x0 v
  have hafter (v : BitVec 64) : Kept x rs (after v) := ⟨hk.x9, hk.x10, hk.x11, hk.x12, hk.x13⟩
  cases hr : redirect K st r with
  | ok st' =>
    rw [redirect, Kernel.dup2_of_ne K st hne] at hr
    have hstep : Step (child rs K)
        ⟨(regs.set .x8 Nr.dup3).set .x2 0, fl, 12, ⟨st, calls, .running⟩⟩
        ⟨after (r.newfd.setWidth 64), fl, 13, ⟨st', calls ++ [dup3Call r], .running⟩⟩ :=
      next_svc_some rfl rfl hcall (serve_dup3_ok hr)
    obtain ⟨fl', hsign⟩ := sign_block (K := K) (after (r.newfd.setWidth 64)) fl st'
      (calls ++ [dup3Call r])
    have hmsb : (after (r.newfd.setWidth 64) .x0).msb = false := msb_fd r.newfd
    rw [hmsb] at hsign
    exact ⟨_, fl', hafter _, rfl, (hmov.tail hstep).trans hsign⟩
  | error e =>
    rw [redirect, Kernel.dup2_of_ne K st hne] at hr
    have hstep : Step (child rs K)
        ⟨(regs.set .x8 Nr.dup3).set .x2 0, fl, 12, ⟨st, calls, .running⟩⟩
        ⟨after e.raw, fl, 13, ⟨st, calls ++ [dup3Call r], .running⟩⟩ :=
      next_svc_some rfl rfl hcall (serve_dup3_error hr)
    obtain ⟨fl', hsign⟩ := sign_block (K := K) (after e.raw) fl st (calls ++ [dup3Call r])
    have hmsb : (after e.raw .x0).msb = true := e.msb_raw
    rw [hmsb] at hsign
    exact ⟨_, fl', hafter _, rfl, (hmov.tail hstep).trans hsign⟩

/-- The child is about to treat the entry at index `i`, or to leave the loop. -/
def Ready (x : ExecArgs) (rs : RedirectSlice) (i : ℕ) (st : KState φ) (calls : List Call)
    (c : Cfg φ) : Prop :=
  ∃ regs fl, c = ⟨regs, fl, if i < rs.list.length then 4 else 19, ⟨st, calls, .running⟩⟩ ∧
    Kept x rs regs ∧ (i < rs.list.length → regs .x14 = BitVec.ofNat 64 i)

theorem ready_of_test {regs : Regs} (hk : Kept x rs regs) {i : ℕ} (hlt : i < rs.list.length)
    (hi : regs .x14 = BitVec.ofNat 64 i) (fl : Flags) (st : KState φ) (calls : List Call) :
    ∃ c, Reaches (child rs K) ⟨regs, fl, 15, ⟨st, calls, .running⟩⟩ c ∧
      Ready x rs (i + 1) st calls c := by
  have hrun : run (child rs K) 4 ⟨regs, fl, 15, ⟨st, calls, .running⟩⟩ =
      ⟨regs.set .x14 (regs .x14 + 1), .compare (regs .x14 + 1) (regs .x13),
        if Cond.lt.holds (.compare (regs .x14 + 1) (regs .x13)) then 4 else 19,
        ⟨st, calls, .running⟩⟩ := rfl
  have hsize := rs.size_lt
  have hadd : regs .x14 + 1 = BitVec.ofNat 64 (i + 1) := by
    rw [hi]
    exact (BitVec.ofNat_add i 1).symm
  have hnat : (BitVec.ofNat 64 (i + 1)).toNat = i + 1 := by
    rw [BitVec.toNat_ofNat, Nat.mod_eq_of_lt (by omega)]
  have hlen : (BitVec.ofNat 64 rs.list.length).toNat = rs.list.length := by
    rw [BitVec.toNat_ofNat, Nat.mod_eq_of_lt (by omega)]
  rw [hadd, hk.x13, compare_lt_of_lt (by omega) (by omega), hnat, hlen] at hrun
  simp only [decide_eq_true_eq] at hrun
  have hk' : Kept x rs (regs.set .x14 (BitVec.ofNat 64 (i + 1))) :=
    ⟨hk.x9, hk.x10, hk.x11, hk.x12, hk.x13⟩
  exact ⟨_, Reaches.of_run hrun, _, _, rfl, hk', fun _ => rfl⟩

theorem ready_step {i : ℕ} {st : KState φ} {calls : List Call} {c : Cfg φ}
    (hc : Ready x rs i st calls c) {r : Redirect} (hr : rs.list[i]? = some r) :
    if r.oldfd = r.newfd then ∃ d, Reaches (child rs K) c d ∧ Ready x rs (i + 1) st calls d
    else match redirect K st r with
      | .ok st' => ∃ d, Reaches (child rs K) c d ∧
          Ready x rs (i + 1) st' (calls ++ [dup3Call r]) d
      | .error _ => EndsWith (child rs K) Cfg.proc c (failEnding st (calls ++ [dup3Call r])) := by
  obtain ⟨hlt, -⟩ := List.getElem?_eq_some_iff.mp hr
  obtain ⟨regs, fl, rfl, hk, hx14⟩ := hc
  obtain ⟨regs', fl', hload, hk', hx14', hcall⟩ := load_block (K := K) hk (hx14 hlt) hr fl st calls
  rw [if_pos hlt]
  by_cases heq : r.oldfd = r.newfd
  · rw [if_pos heq] at hload ⊢
    obtain ⟨d, htest, hd⟩ := ready_of_test (K := K) hk' hlt (hx14'.trans (hx14 hlt)) fl' st calls
    exact ⟨d, hload.trans htest, hd⟩
  · rw [if_neg heq] at hload ⊢
    obtain ⟨regs₁, fl₁, hk₁, hx14₁, hdup⟩ := dup3_block (K := K) hk' hcall heq st fl' calls
    cases hred : redirect K st r with
    | ok st' =>
      rw [hred] at hdup
      obtain ⟨d, htest, hd⟩ := ready_of_test (K := K) hk₁ hlt
        (hx14₁.trans (hx14'.trans (hx14 hlt))) fl₁ st' (calls ++ [dup3Call r])
      exact ⟨d, (hload.trans hdup).trans htest, hd⟩
    | error e =>
      rw [hred] at hdup
      exact (fail_block regs₁ fl₁ st (calls ++ [dup3Call r])).of_reaches (hload.trans hdup)

theorem ready_endsWith {i : ℕ} {st : KState φ} {calls : List Call} {c : Cfg φ}
    (hc : Ready x rs i st calls c) :
    EndsWith (child rs K) Cfg.proc c (plan K dup3Call x (rs.list.drop i) st calls) := by
  induction hn : rs.list.length - i generalizing i st calls c with
  | zero =>
    obtain ⟨regs, fl, rfl, hk, -⟩ := hc
    rw [List.drop_of_length_le (by omega), if_neg (by omega)]
    exact exec_block hk fl st calls
  | succ n ih =>
    have hlt : i < rs.list.length := by omega
    have hstep := ready_step (K := K) hc (List.getElem?_eq_getElem hlt)
    rw [List.drop_eq_getElem_cons hlt, plan]
    split_ifs at hstep ⊢ with heq
    · obtain ⟨d, hcd, hd⟩ := hstep
      exact (ih hd (by omega)).of_reaches hcd
    · cases hred : redirect K st rs.list[i] with
      | ok st' =>
        rw [hred] at hstep
        obtain ⟨d, hcd, hd⟩ := hstep
        exact (ih hd (by omega)).of_reaches hcd
      | error e =>
        rw [hred] at hstep
        exact hstep

variable (x rs) in
theorem clone_block (who : BitVec 64) (regs : Regs) (fl : Flags) (flags : BitVec 64)
    (st : KState φ) :
    ∃ regs', Kept x rs regs' ∧ regs' .x0 = who ∧
      Reaches (next rs.word K who vforkExecveRedirected) (start regs fl flags x rs st)
        ⟨regs', fl, if who = 0 then 2 else 34, ⟨st, [], .running⟩⟩ := by
  have hrun : run (next rs.word K who vforkExecveRedirected) 2 (start regs fl flags x rs st) =
      ⟨(entryRegs regs flags x rs).set .x0 who, fl, if who = 0 then 2 else 34,
        ⟨st, [], .running⟩⟩ := rfl
  exact ⟨_, ⟨rfl, rfl, rfl, rfl, rfl⟩, rfl, Reaches.of_run hrun⟩

variable (x rs) in
theorem ready_start (regs : Regs) (fl : Flags) (flags : BitVec 64) (st : KState φ) :
    ∃ c, Reaches (child rs K) (start regs fl flags x rs st) c ∧ Ready x rs 0 st [] c := by
  obtain ⟨regs₀, hk, -, hclone⟩ := clone_block (K := K) x rs 0 regs fl flags st
  have hrun : run (child rs K) 1 ⟨regs₀, fl, 2, ⟨st, [], .running⟩⟩ =
      ⟨regs₀, fl, if regs₀ .x13 = 0 then 19 else 3, ⟨st, [], .running⟩⟩ := rfl
  have hsize := rs.size_lt
  have hzero : regs₀ .x13 = 0 ↔ rs.list.length = 0 := by
    rw [hk.x13, ← BitVec.toNat_inj, BitVec.toNat_ofNat, Nat.mod_eq_of_lt (by omega)]
    rfl
  simp only [hzero] at hrun
  have hreach := hclone.trans (Reaches.of_run hrun)
  by_cases hlen : rs.list.length = 0
  · rw [if_pos hlen] at hreach
    exact ⟨_, hreach, _, _, by rw [if_neg (by omega)], hk, fun h => absurd h (by omega)⟩
  · rw [if_neg hlen] at hreach
    have hmov : Reaches (child rs K) ⟨regs₀, fl, 3, ⟨st, [], .running⟩⟩
        ⟨regs₀.set .x14 0, fl, 4, ⟨st, [], .running⟩⟩ := .of_run (n := 1) rfl
    have hk' : Kept x rs (regs₀.set .x14 0) := ⟨hk.x9, hk.x10, hk.x11, hk.x12, hk.x13⟩
    exact ⟨_, hreach.trans hmov, _, _, by rw [if_pos (by omega)], hk', fun _ => rfl⟩

def result (c : Cfg φ) : Except Errno (BitVec 32) := fromRetI32 (c.regs .x0)

theorem parent_returns {who : BitVec 64} (hwho : who ≠ 0) (regs : Regs) (fl : Flags)
    (flags : BitVec 64) (st : KState φ) :
    EndsWith (next rs.word K who vforkExecveRedirected) (fun c => (c.proc, result c))
      (start regs fl flags x rs st) (⟨st, [], .returned⟩, fromRetI32 who) := by
  obtain ⟨regs', -, hx0, hclone⟩ := clone_block (K := K) x rs who regs fl flags st
  rw [if_neg hwho] at hclone
  have hleave : Reaches (next rs.word K who vforkExecveRedirected)
      ⟨regs', fl, 34, ⟨st, [], .running⟩⟩ ⟨regs', fl, 35, ⟨st, [], .returned⟩⟩ :=
    .of_run (n := 2) rfl
  refine ⟨_, ⟨hclone.trans hleave, next_halted (by simp)⟩, ?_⟩
  simp [result, hx0]

end Blocks

/-- On aarch64 the child of `vfork_exec_redirected` ends, and ends as its
contract says, for every list whose descriptors are open. -/
theorem redirected_child_follows (K : Kernel φ) (regs : Regs) (fl : Flags) (x : ExecArgs)
    (rs : RedirectSlice) (st : KState φ) (hopen : Open st rs.list) :
    ∃ p, EndsWith (child rs K) Cfg.proc (start regs fl vforkFlags x rs st) p ∧
      Follows K dup3Call x st rs.list p := by
  obtain ⟨c, hreach, hc⟩ := ready_start (K := K) x rs regs fl vforkFlags st
  have hend := (ready_endsWith (K := K) hc).of_reaches hreach
  rw [List.drop_zero] at hend
  exact ⟨_, hend, follows_plan hopen⟩

theorem redirected_child_follows_twoReal :
    Open twoOpen twoReal.list ∧
      ∃ p, EndsWith (child twoReal plainKernel) Cfg.proc
          (start (fun _ => 0) ⟨false, false, false, false⟩ vforkFlags ⟨1, 2, 3⟩ twoReal twoOpen) p ∧
        Follows plainKernel dup3Call ⟨1, 2, 3⟩ twoOpen twoReal.list p :=
  ⟨open_twoReal, redirected_child_follows plainKernel _ _ _ _ _ open_twoReal⟩

end RustyLibc.Aarch64
