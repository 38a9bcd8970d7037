import RustyLibc.Aarch64Redirect
import RustyLibc.WaitStatus
import RustyLibc.X86Redirect

/-!
# Starting a program and waiting for it (`arch/`, `process.rs`, `wait.rs`)

`vfork_exec` goes through a trampoline of its own on either architecture, without
the loop of `vfork_exec_redirected`. `spawned` is what a caller is promised: the
child has called `execve` and, if that failed, `exit_group(127)`; the parent has
what `clone` returned. Both trampolines keep to it, and so do the two of
`vfork_exec_redirected` when they are given no redirects.

The parent hears of the child through the word that `waitpid` returns. A child
whose program was never started has exited by itself; what happens to a program
that was started is not up to this library, and the parameter `later` stands for
it.
-/

namespace RustyLibc.Process
open Linux StepMachine

variable {φ : Type}

/-- The process as the block leaves it and, in the parent, the result. -/
abbrev Ending (φ : Type) := Linux.Proc φ × Option (Except Errno (BitVec 32))

def spawned (K : Kernel φ) (x : ExecArgs) (st : KState φ) (who : BitVec 64) : Ending φ :=
  if who = 0 then (execEnding K x st [], none)
  else (⟨st, [], .returned⟩, some (fromRetI32 who))

def endingOf {σ : Type} (proc : σ → Linux.Proc φ) (result : σ → Except Errno (BitVec 32)) (c : σ) :
    Ending φ :=
  (proc c, if (proc c).status = .returned then some (result c) else none)

section Endings

variable {σ : Type} {next : σ → Option σ} {proc : σ → Linux.Proc φ}
  {result : σ → Except Errno (BitVec 32)} {c : σ}

theorem endsWith_ending {p : Linux.Proc φ} (h : EndsWith next proc c p)
    (hp : p.status ≠ .returned) : EndsWith next (endingOf proc result) c (p, none) := by
  obtain ⟨t, ht, rfl⟩ := h
  exact ⟨t, ht, by rw [endingOf, if_neg hp]⟩

theorem endsWith_returned {st : KState φ} {r : Except Errno (BitVec 32)}
    (h : EndsWith next (fun c => (proc c, result c)) c (⟨st, [], .returned⟩, r)) :
    EndsWith next (endingOf proc result) c (⟨st, [], .returned⟩, some r) := by
  obtain ⟨t, ht, hview⟩ := h
  obtain ⟨hproc, hresult⟩ := Prod.mk.inj hview
  exact ⟨t, ht, by rw [endingOf, hproc, if_pos rfl, hresult]⟩

end Endings

theorem status_execEnding (K : Kernel φ) (x : ExecArgs) (st : KState φ) (calls : List Call) :
    (execEnding K x st calls).status ≠ .returned := by
  rw [execEnding]
  cases execError K x st with
  | none => simp
  | some e => simp

def noRedirects (base : BitVec 64) (word : BitVec 64 → BitVec 32) : RedirectSlice where
  list := []
  base := base
  word := word
  size_lt := by decide
  oldfd_at := by simp
  newfd_at := by simp

end RustyLibc.Process

namespace RustyLibc.X86
open Linux StepMachine Process

variable {φ : Type}

def vforkExecve : Program :=
  [ .syscall,
    .test .rax .rax,
    .jcc .nz 2 .f,
    .mov .rdi .r12,
    .mov .rsi .r13,
    .mov .rdx .r14,
    .movi .rax Nr.execve,
    .syscall,
    .movi .rax Nr.exitGroup,
    .movi .rdi 127,
    .syscall,
    .ud2,
    .label 2 ]

def plainRegs (regs : Regs) (flags : BitVec 64) (x : ExecArgs) : Regs
  | .rax => Nr.clone
  | .rdi => flags
  | .rsi => 0
  | .rdx => 0
  | .r10 => 0
  | .r8 => 0
  | .r12 => x.path
  | .r13 => x.argv
  | .r14 => x.envp
  | r => regs r

def plainStart (regs : Regs) (fl : Flags) (flags : BitVec 64) (x : ExecArgs) (st : KState φ) :
    Cfg φ :=
  ⟨plainRegs regs flags x, fl, 0, ⟨st, [], .running⟩⟩

def ending : Cfg φ → Ending φ := endingOf Cfg.proc result

variable {M : Machine} {K : Kernel φ} {x : ExecArgs}

theorem plain_exec_block {regs : Regs} (h12 : regs .r12 = x.path) (h13 : regs .r13 = x.argv)
    (h14 : regs .r14 = x.envp) (fl : Flags) (st : KState φ) :
    EndsWith (next M K 0 vforkExecve) Cfg.proc ⟨regs, fl, 3, ⟨st, [], .running⟩⟩
      (execEnding K x st []) := by
  obtain ⟨regs', hregs', hcall⟩ : ∃ regs' : Regs, Reaches (next M K 0 vforkExecve)
      ⟨regs, fl, 3, ⟨st, [], .running⟩⟩ ⟨regs', fl, 7, ⟨st, [], .running⟩⟩ ∧
      callOf regs' = x.call := by
    refine ⟨_, .of_run (n := 4) rfl, ?_⟩
    rw [ExecArgs.call, ← h12, ← h13, ← h14]
    rfl
  exact (exec_tail ⟨_, rfl⟩ hcall fl st []).of_reaches hregs'

theorem plain_spawns (who : BitVec 64) (regs : Regs) (fl : Flags) (flags : BitVec 64)
    (st : KState φ) :
    EndsWith (next M K who vforkExecve) ending (plainStart regs fl flags x st)
      (spawned K x st who) := by
  obtain ⟨regs', fl', h12, h13, h14, hrax, hclone⟩ : ∃ regs' fl', regs' .r12 = x.path ∧
      regs' .r13 = x.argv ∧ regs' .r14 = x.envp ∧ regs' .rax = who ∧
      Reaches (next M K who vforkExecve) (plainStart regs fl flags x st)
        ⟨regs', fl', if who = 0 then 3 else 12, ⟨st, [], .running⟩⟩ := by
    have hrun : run (next M K who vforkExecve) 3 (plainStart regs fl flags x st) =
        ⟨(((plainRegs regs flags x).set .rax who).set .rcx (M.addr 1)).set .r11 (M.rflags fl),
          .of (who &&& who) false, if !(who &&& who == 0) then 12 else 3,
          ⟨st, [], .running⟩⟩ := rfl
    have hpc : (if !(who &&& who == 0) then 12 else 3) = if who = 0 then 3 else 12 := by
      by_cases hwho : who = 0 <;> simp [hwho]
    rw [hpc] at hrun
    exact ⟨_, _, rfl, rfl, rfl, rfl, Reaches.of_run hrun⟩
  rw [spawned]
  by_cases hwho : who = 0
  · subst hwho
    rw [if_pos rfl]
    exact endsWith_ending ((plain_exec_block h12 h13 h14 fl' st).of_reaches hclone)
      (status_execEnding K x st [])
  · rw [if_neg hwho] at hclone ⊢
    have hleave : Reaches (next M K who vforkExecve) ⟨regs', fl', 12, ⟨st, [], .running⟩⟩
        ⟨regs', fl', 13, ⟨st, [], .returned⟩⟩ := .of_run (n := 2) rfl
    refine endsWith_returned ⟨_, ⟨hclone.trans hleave, next_halted (by simp)⟩, ?_⟩
    simp [result, hrax]

theorem redirected_spawns (who : BitVec 64) (regs : Regs) (fl : Flags) (flags : BitVec 64)
    (st : KState φ) (base : BitVec 64) :
    EndsWith (next M K who vforkExecveRedirected) ending
      (start regs fl flags x (noRedirects base M.word) st) (spawned K x st who) := by
  rw [spawned]
  by_cases hwho : who = 0
  · subst hwho
    rw [if_pos rfl]
    obtain ⟨c, hreach, hc⟩ :=
      ready_start (M := M) (K := K) x (noRedirects base M.word) regs fl flags st
    exact endsWith_ending ((ready_done hc le_rfl).of_reaches hreach) (status_execEnding K x st [])
  · rw [if_neg hwho]
    exact endsWith_returned (parent_returns hwho regs fl flags st)

end RustyLibc.X86

namespace RustyLibc.Aarch64
open Linux StepMachine Process

variable {φ : Type}

def vforkExecve : Program :=
  [ .svc,
    .cbnz .x0 2 .f,
    .mov .x0 .x9,
    .mov .x1 .x10,
    .mov .x2 .x11,
    .movi .x8 Nr.execve,
    .svc,
    .movi .x8 Nr.exitGroup,
    .movi .x0 127,
    .svc,
    .brk,
    .label 2 ]

def plainRegs (regs : Regs) (flags : BitVec 64) (x : ExecArgs) : Regs
  | .x8 => Nr.clone
  | .x0 => flags
  | .x1 => 0
  | .x2 => 0
  | .x3 => 0
  | .x4 => 0
  | .x9 => x.path
  | .x10 => x.argv
  | .x11 => x.envp
  | r => regs r

def plainStart (regs : Regs) (fl : Flags) (flags : BitVec 64) (x : ExecArgs) (st : KState φ) :
    Cfg φ :=
  ⟨plainRegs regs flags x, fl, 0, ⟨st, [], .running⟩⟩

def ending : Cfg φ → Ending φ := endingOf Cfg.proc result

variable {word : BitVec 64 → BitVec 32} {K : Kernel φ} {x : ExecArgs}

theorem plain_exec_block {regs : Regs} (h9 : regs .x9 = x.path) (h10 : regs .x10 = x.argv)
    (h11 : regs .x11 = x.envp) (fl : Flags) (st : KState φ) :
    EndsWith (next word K 0 vforkExecve) Cfg.proc ⟨regs, fl, 2, ⟨st, [], .running⟩⟩
      (execEnding K x st []) := by
  obtain ⟨regs', hregs', hcall⟩ : ∃ regs' : Regs, Reaches (next word K 0 vforkExecve)
      ⟨regs, fl, 2, ⟨st, [], .running⟩⟩ ⟨regs', fl, 6, ⟨st, [], .running⟩⟩ ∧
      callOf regs' = x.call := by
    refine ⟨_, .of_run (n := 4) rfl, ?_⟩
    rw [ExecArgs.call, ← h9, ← h10, ← h11]
    rfl
  exact (exec_tail ⟨_, rfl⟩ hcall fl st []).of_reaches hregs'

theorem plain_spawns (who : BitVec 64) (regs : Regs) (fl : Flags) (flags : BitVec 64)
    (st : KState φ) :
    EndsWith (next word K who vforkExecve) ending (plainStart regs fl flags x st)
      (spawned K x st who) := by
  have hclone : Reaches (next word K who vforkExecve) (plainStart regs fl flags x st)
      ⟨(plainRegs regs flags x).set .x0 who, fl, if who = 0 then 2 else 11,
        ⟨st, [], .running⟩⟩ := .of_run (n := 2) rfl
  rw [spawned]
  by_cases hwho : who = 0
  · subst hwho
    rw [if_pos rfl]
    exact endsWith_ending ((plain_exec_block rfl rfl rfl fl st).of_reaches hclone)
      (status_execEnding K x st [])
  · rw [if_neg hwho] at hclone ⊢
    have hleave : Reaches (next word K who vforkExecve)
        ⟨(plainRegs regs flags x).set .x0 who, fl, 11, ⟨st, [], .running⟩⟩
        ⟨(plainRegs regs flags x).set .x0 who, fl, 12, ⟨st, [], .returned⟩⟩ := .of_run (n := 2) rfl
    refine endsWith_returned ⟨_, ⟨hclone.trans hleave, next_halted (by simp)⟩, ?_⟩
    simp [result, Regs.set]

theorem redirected_spawns (who : BitVec 64) (regs : Regs) (fl : Flags) (flags : BitVec 64)
    (st : KState φ) (base : BitVec 64) :
    EndsWith (next word K who vforkExecveRedirected) ending
      (start regs fl flags x (noRedirects base word) st) (spawned K x st who) := by
  rw [spawned]
  by_cases hwho : who = 0
  · subst hwho
    rw [if_pos rfl]
    obtain ⟨c, hreach, hc⟩ := ready_start (K := K) x (noRedirects base word) regs fl flags st
    exact endsWith_ending ((ready_endsWith hc).of_reaches hreach) (status_execEnding K x st [])
  · rw [if_neg hwho]
    have hparent : EndsWith (next (noRedirects base word).word K who vforkExecveRedirected) _
        (start regs fl flags x (noRedirects base word) st) _ :=
      parent_returns hwho regs fl flags st
    exact endsWith_returned hparent

end RustyLibc.Aarch64

namespace RustyLibc.Process
open Linux StepMachine Wait

variable {φ : Type}

/-- However `clone` returns, `vfork_exec` ends the same way on both architectures,
and so does `vfork_exec_redirected` without redirects. -/
theorem vforkExec_spawns (K : Kernel φ) (M : X86.Machine) (x : ExecArgs) (st : KState φ)
    (who base : BitVec 64) (regs : X86.Regs) (fl : X86.Flags) (regs' : Aarch64.Regs)
    (fl' : Aarch64.Flags) :
    EndsWith (X86.next M K who X86.vforkExecve) X86.ending
      (X86.plainStart regs fl vforkFlags x st) (spawned K x st who) ∧
    EndsWith (X86.next M K who X86.vforkExecveRedirected) X86.ending
      (X86.start regs fl vforkFlags x (noRedirects base M.word) st) (spawned K x st who) ∧
    EndsWith (Aarch64.next M.word K who Aarch64.vforkExecve) Aarch64.ending
      (Aarch64.plainStart regs' fl' vforkFlags x st) (spawned K x st who) ∧
    EndsWith (Aarch64.next M.word K who Aarch64.vforkExecveRedirected) Aarch64.ending
      (Aarch64.start regs' fl' vforkFlags x (noRedirects base M.word) st) (spawned K x st who) :=
  ⟨X86.plain_spawns who regs fl vforkFlags st,
    X86.redirected_spawns who regs fl vforkFlags st base,
    Aarch64.plain_spawns who regs' fl' vforkFlags st,
    Aarch64.redirected_spawns who regs' fl' vforkFlags st base⟩

/-- What the kernel reports of a child that the trampoline left like this. -/
def reported (later : Change) : Status → Option Change
  | .exited code => some (.exited (code.setWidth 8))
  | .replaced => some later
  | .running => none
  | .trapped => none
  | .returned => none

def Applies (K : Kernel φ) (st : KState φ) (rs : List Redirect) (st' : KState φ) : Prop :=
  rs.foldlM (redirect K) st = .ok st'

theorem wexitstatus_exited (code : BitVec 8) :
    wifexited (word 0 code 0) = true ∧ wexitstatus (word 0 code 0) = code.setWidth 32 :=
  ⟨test_kind (.exited code), second_byte 0 code 0⟩

/-- The parent tells from the wait status whether a redirect or `execve` failed; if
neither did, it sees what the program did later. -/
theorem Follows.reported {K : Kernel φ} {dup : Redirect → Call} {x : ExecArgs} {st : KState φ}
    {rs : List Redirect} {p : Linux.Proc φ} (h : Follows K dup x st rs p) (later : Change) :
    ∃ status, (reported later p.status).map encode = some status ∧
      ((∀ st', ¬ Applies K st rs st') → wifexited status = true ∧ wexitstatus status = 126) ∧
      ∀ st', Applies K st rs st' →
        (execError K x st' ≠ none → wifexited status = true ∧ wexitstatus status = 127) ∧
        (execError K x st' = none → status = encode later) := by
  rcases fold_cases (K := K) rs st with ⟨st', happ⟩ | ⟨k, r, st', e, hk, hpre, hr⟩
  · obtain ⟨-, hran, hfail⟩ := h.applied st' happ
    have hsame : ∀ st'', Applies K st rs st'' → st'' = st' := fun st'' h'' =>
      Except.ok.inj (h''.symm.trans happ)
    cases hx : execError K x st' with
    | none =>
      refine ⟨encode later, by rw [(hran hx).2]; rfl, fun hnone => absurd happ (hnone st'), ?_⟩
      intro st'' h''
      obtain rfl := hsame st'' h''
      exact ⟨fun hne => absurd hx hne, fun _ => rfl⟩
    | some e =>
      have hstatus := (hfail (by simp [hx])).2
      refine ⟨word 0 127 0, by rw [hstatus]; rfl, fun hnone => absurd happ (hnone st'), ?_⟩
      intro st'' h''
      obtain rfl := hsame st'' h''
      exact ⟨fun _ => wexitstatus_exited 127, fun hnone => by simp [hx] at hnone⟩
  · obtain ⟨-, -, hstatus⟩ := h.failed k r st' e hk hpre hr
    refine ⟨word 0 126 0, by rw [hstatus]; rfl, fun _ => wexitstatus_exited 126, ?_⟩
    exact fun st'' happ => absurd happ (fold_ne_ok hk hpre hr st'')

theorem redirected_child_reported (K : Kernel φ) (regs : Aarch64.Regs) (fl : Aarch64.Flags)
    (x : ExecArgs) (rs : RedirectSlice) (st : KState φ) (hopen : Open st rs.list)
    (later : Change) :
    ∃ p status, EndsWith (Aarch64.child rs K) Aarch64.Cfg.proc
        (Aarch64.start regs fl vforkFlags x rs st) p ∧
      (reported later p.status).map encode = some status ∧
      ((∀ st', ¬ Applies K st rs.list st') → wifexited status = true ∧ wexitstatus status = 126) ∧
      ∀ st', Applies K st rs.list st' →
        (execError K x st' ≠ none → wifexited status = true ∧ wexitstatus status = 127) ∧
        (execError K x st' = none → status = encode later) := by
  obtain ⟨c, hreach, hc⟩ := Aarch64.ready_start (K := K) x rs regs fl vforkFlags st
  have hend := (Aarch64.ready_endsWith (K := K) hc).of_reaches hreach
  rw [List.drop_zero] at hend
  obtain ⟨status, hstatus⟩ := (follows_plan hopen).reported later
  exact ⟨_, status, hend, hstatus⟩

def refusingKernel : Kernel ℕ := { plainKernel with exec := fun _ _ _ _ => some .EINVAL }

theorem redirected_child_reported_refused :
    ∃ p status, EndsWith (Aarch64.child twoReal refusingKernel) Aarch64.Cfg.proc
        (Aarch64.start (fun _ => 0) ⟨false, false, false, false⟩ vforkFlags ⟨1, 2, 3⟩ twoReal
          twoOpen) p ∧
      (reported .continued p.status).map encode = some status ∧ wexitstatus status = 127 := by
  obtain ⟨p, status, hend, hstatus, -, happ⟩ := redirected_child_reported refusingKernel
    (fun _ => 0) ⟨false, false, false, false⟩ ⟨1, 2, 3⟩ twoReal twoOpen open_twoReal .continued
  refine ⟨p, status, hend, hstatus, ((happ _ rfl).1 ?_).2⟩
  simp [execError, refusingKernel]

end RustyLibc.Process
