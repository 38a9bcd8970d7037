import Mathlib.Logic.Function.Basic
import Mathlib.Algebra.Ring.Nat

/-!
# The kernel seen by a vforked child

The calls a redirect trampoline issues, and what the kernel does with them. A
descriptor table maps descriptor numbers to open files; `dup2` and `dup3`
follow their manual pages, including the failures that do not depend on the
arguments (`EBUSY`, `EINTR`, `EMFILE`, ...), which the parameter `refuse` may
inject behind any number of duplicates; a child makes no call for a redirect
behind one that was refused. `limit` is `RLIMIT_NOFILE`, which the kernel never lets
pass `INT_MAX`. Whether `execve` succeeds is a parameter as well.

A process runs on until `execve` has replaced its image, it has exited, it has
hit an undefined instruction, or control has left the end of the assembly block.
-/

namespace RustyLibc.Linux

variable {φ : Type}

structure SysErr where
  code : ℕ
  code_pos : 1 ≤ code
  code_le : code ≤ 4095
  deriving DecidableEq, Repr

namespace SysErr

def EPERM : SysErr := ⟨1, by decide, by decide⟩
def ENOENT : SysErr := ⟨2, by decide, by decide⟩
def ESRCH : SysErr := ⟨3, by decide, by decide⟩
def EINTR : SysErr := ⟨4, by decide, by decide⟩
def EBADF : SysErr := ⟨9, by decide, by decide⟩
def ECHILD : SysErr := ⟨10, by decide, by decide⟩
def EAGAIN : SysErr := ⟨11, by decide, by decide⟩
def EFAULT : SysErr := ⟨14, by decide, by decide⟩
def EEXIST : SysErr := ⟨17, by decide, by decide⟩
def EINVAL : SysErr := ⟨22, by decide, by decide⟩
def ENOSYS : SysErr := ⟨38, by decide, by decide⟩

def raw (e : SysErr) : BitVec 64 := -(BitVec.ofNat 64 e.code)

theorem toInt_raw (e : SysErr) : e.raw.toInt = -(e.code : Int) := by
  have h1 := e.code_pos
  have h2 := e.code_le
  have hmod : Int.bmod (e.code : Int) (2 ^ 64) = e.code :=
    Int.bmod_eq_of_le (by omega) (by omega)
  rw [raw, BitVec.toInt_neg, BitVec.toInt_eq_toNat_bmod, BitVec.toNat_ofNat,
    Nat.mod_eq_of_lt (by omega), hmod]
  exact Int.bmod_eq_of_le (by omega) (by omega)

end SysErr

structure FdEntry (φ : Type) where
  file : φ
  cloexec : Bool

/-- Descriptor numbers are unsigned words to the kernel; an `i32` is passed by
its bit pattern. -/
abbrev FdTable (φ : Type) := BitVec 32 → Option (FdEntry φ)

def oCloexec : BitVec 32 := 0x80000

structure KState (φ : Type) where
  table : FdTable φ
  dups : ℕ

structure Kernel (φ : Type) where
  limit : ℕ
  limit_le : limit ≤ 2 ^ 31
  refuse : ℕ → Option SysErr
  exec : FdTable φ → BitVec 64 → BitVec 64 → BitVec 64 → Option SysErr

namespace Kernel

def dup3 (K : Kernel φ) (st : KState φ) (oldfd newfd flags : BitVec 32) :
    Except SysErr (KState φ) :=
  if flags &&& ~~~oCloexec ≠ 0 then .error .EINVAL
  else if oldfd = newfd then .error .EINVAL
  else if K.limit ≤ newfd.toNat then .error .EBADF
  else match st.table oldfd with
    | none => .error .EBADF
    | some entry => match K.refuse st.dups with
      | some e => .error e
      | none => .ok
        { table := Function.update st.table newfd
            (some ⟨entry.file, decide (flags &&& oCloexec ≠ 0)⟩)
          dups := st.dups + 1 }

def dup2 (K : Kernel φ) (st : KState φ) (oldfd newfd : BitVec 32) : Except SysErr (KState φ) :=
  if oldfd = newfd then
    if (st.table oldfd).isSome then .ok st else .error .EBADF
  else K.dup3 st oldfd newfd 0

theorem dup2_self {K : Kernel φ} {st : KState φ} {fd : BitVec 32} (h : (st.table fd).isSome) :
    K.dup2 st fd fd = .ok st := by
  simp [dup2, h]

theorem dup2_of_ne (K : Kernel φ) (st : KState φ) {oldfd newfd : BitVec 32} (h : oldfd ≠ newfd) :
    K.dup2 st oldfd newfd = K.dup3 st oldfd newfd 0 :=
  if_neg h

theorem dup3_ok {K : Kernel φ} {st st' : KState φ} {oldfd newfd flags : BitVec 32}
    (h : K.dup3 st oldfd newfd flags = .ok st') :
    newfd.toNat < 2 ^ 31 ∧ ∀ fd, (st.table fd).isSome → (st'.table fd).isSome := by
  unfold dup3 at h
  have hlim := K.limit_le
  split_ifs at h with hflags heq hle
  cases hent : st.table oldfd with
  | none => simp [hent] at h
  | some entry =>
    cases href : K.refuse st.dups with
    | some e => simp [hent, href] at h
    | none =>
      simp only [hent, href, Except.ok.injEq] at h
      subst h
      refine ⟨by omega, fun fd hfd => ?_⟩
      by_cases hnew : fd = newfd
      · simp [hnew]
      · simpa [Function.update_of_ne hnew] using hfd

theorem dup2_ok_open {K : Kernel φ} {st st' : KState φ} {oldfd newfd : BitVec 32}
    (h : K.dup2 st oldfd newfd = .ok st') {fd : BitVec 32} (hfd : (st.table fd).isSome) :
    (st'.table fd).isSome := by
  unfold dup2 at h
  split_ifs at h with heq hopen
  · cases h
    exact hfd
  · exact (dup3_ok h).2 fd hfd

end Kernel

inductive Call where
  | clone (flags : BitVec 64)
  | dup2 (oldfd newfd : BitVec 32)
  | dup3 (oldfd newfd flags : BitVec 32)
  | execve (path argv envp : BitVec 64)
  | exitGroup (code : BitVec 32)
  | unknown (number : BitVec 64)
  deriving DecidableEq, Repr

inductive Status where
  | running
  | replaced
  | exited (code : BitVec 32)
  | trapped
  | returned
  deriving DecidableEq, Repr

/-- A process: the kernel's view of it, the calls it has issued, oldest first,
and whether it still runs. The log is that of the process a `clone` reply is
for, so it starts after the `clone`. -/
structure Proc (φ : Type) where
  kern : KState φ
  calls : List Call
  status : Status

/-- Serve one call. `who` is what `clone` returns: `0` in the child, the pid or
an error in the parent. The second component is the value the caller finds in
its result register, if it runs on. -/
def Kernel.serve (K : Kernel φ) (who : BitVec 64) (p : Proc φ) (call : Call) :
    Proc φ × Option (BitVec 64) :=
  let logged : Proc φ := { p with calls := p.calls ++ [call] }
  match call with
  | .clone _ => (p, some who)
  | .dup2 oldfd newfd => match K.dup2 p.kern oldfd newfd with
    | .ok st => ({ logged with kern := st }, some (newfd.setWidth 64))
    | .error e => (logged, some e.raw)
  | .dup3 oldfd newfd flags => match K.dup3 p.kern oldfd newfd flags with
    | .ok st => ({ logged with kern := st }, some (newfd.setWidth 64))
    | .error e => (logged, some e.raw)
  | .execve path argv envp => match K.exec p.kern.table path argv envp with
    | none => ({ logged with status := .replaced }, none)
    | some e => (logged, some e.raw)
  | .exitGroup code => ({ logged with status := .exited code }, none)
  | .unknown _ => (logged, some SysErr.ENOSYS.raw)

section Serve

variable {K : Kernel φ} {who : BitVec 64} {st st' : KState φ} {calls : List Call} {e : SysErr}

theorem serve_dup2_ok {oldfd newfd : BitVec 32} (h : K.dup2 st oldfd newfd = .ok st') :
    K.serve who ⟨st, calls, .running⟩ (.dup2 oldfd newfd) =
      (⟨st', calls ++ [.dup2 oldfd newfd], .running⟩, some (newfd.setWidth 64)) := by
  simp [Kernel.serve, h]

theorem serve_dup2_error {oldfd newfd : BitVec 32} (h : K.dup2 st oldfd newfd = .error e) :
    K.serve who ⟨st, calls, .running⟩ (.dup2 oldfd newfd) =
      (⟨st, calls ++ [.dup2 oldfd newfd], .running⟩, some e.raw) := by
  simp [Kernel.serve, h]

theorem serve_dup3_ok {oldfd newfd flags : BitVec 32} (h : K.dup3 st oldfd newfd flags = .ok st') :
    K.serve who ⟨st, calls, .running⟩ (.dup3 oldfd newfd flags) =
      (⟨st', calls ++ [.dup3 oldfd newfd flags], .running⟩, some (newfd.setWidth 64)) := by
  simp [Kernel.serve, h]

theorem serve_dup3_error {oldfd newfd flags : BitVec 32}
    (h : K.dup3 st oldfd newfd flags = .error e) :
    K.serve who ⟨st, calls, .running⟩ (.dup3 oldfd newfd flags) =
      (⟨st, calls ++ [.dup3 oldfd newfd flags], .running⟩, some e.raw) := by
  simp [Kernel.serve, h]

theorem serve_execve_none {path argv envp : BitVec 64}
    (h : K.exec st.table path argv envp = none) :
    K.serve who ⟨st, calls, .running⟩ (.execve path argv envp) =
      (⟨st, calls ++ [.execve path argv envp], .replaced⟩, none) := by
  simp [Kernel.serve, h]

theorem serve_execve_some {path argv envp : BitVec 64}
    (h : K.exec st.table path argv envp = some e) :
    K.serve who ⟨st, calls, .running⟩ (.execve path argv envp) =
      (⟨st, calls ++ [.execve path argv envp], .running⟩, some e.raw) := by
  simp [Kernel.serve, h]

end Serve

theorem SysErr.msb_raw (e : SysErr) : e.raw.msb = true := by
  rw [BitVec.msb_eq_toInt, e.toInt_raw, decide_eq_true_iff]
  have h1 := e.code_pos
  omega

theorem msb_fd (fd : BitVec 32) : (fd.setWidth 64).msb = false := by
  simp [BitVec.msb_setWidth]

end RustyLibc.Linux
