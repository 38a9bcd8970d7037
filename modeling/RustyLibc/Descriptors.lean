import RustyLibc.Aarch64Redirect
import RustyLibc.SyscallReturn

/-!
# Descriptor calls and what a started program inherits (`fd.rs`, `process.rs`)

`dup`, `dup2`, `dup3`, `fcntl`, `close` and `close_range` over the kernel's
descriptor table. Only `dup2` has a text of its own on each architecture: x86_64
makes the call and aarch64, which has none, makes it out of `dup3` and `fcntl`.
A caller cannot tell the two apart, whatever else it does with its descriptors.

What a program finds open when it starts is the table without the entries marked
close-on-exec. `close_range` with `CLOSE_RANGE_CLOEXEC` marks everything from a
descriptor on, and the redirects of `vfork_exec_redirected` then decide alone
what the program gets besides.
-/

namespace RustyLibc.Linux

variable {φ : Type}

def SysErr.EMFILE : SysErr := ⟨24, by decide, by decide⟩

inductive FdCall where
  | dup (fd : BitVec 32)
  | dup2 (oldfd newfd : BitVec 32)
  | dup3 (oldfd newfd flags : BitVec 32)
  | fcntl (fd cmd arg : BitVec 32)
  | close (fd : BitVec 32)
  | closeRange (first last flags : BitVec 32)
  deriving DecidableEq, Repr

def fGetfd : BitVec 32 := 1
def fSetfd : BitVec 32 := 2
def fDupfdCloexec : BitVec 32 := 1030
def fdCloexec : BitVec 32 := 1
def closeRangeUnshare : BitVec 32 := 2
def closeRangeCloexec : BitVec 32 := 4

/-- What an open file answers on its own: to the `fcntl` commands that are about
the file and not its descriptor, and to the flush when a descriptor is closed. -/
structure Files (φ : Type) where
  status : φ → BitVec 32 → BitVec 32 → BitVec 64
  flush : φ → Option SysErr

namespace Kernel

def lowestFree (K : Kernel φ) (table : FdTable φ) (least : ℕ) : Option ℕ :=
  (List.range' least (K.limit - least)).find? fun n => (table (BitVec.ofNat 32 n)).isNone

def install (K : Kernel φ) (st : KState φ) (entry : FdEntry φ) (least : ℕ) (cloexec : Bool) :
    BitVec 64 × KState φ :=
  match K.lowestFree st.table least, K.refuse st.dups with
  | none, _ => (SysErr.EMFILE.raw, st)
  | some _, some e => (e.raw, st)
  | some n, none =>
    (countRet n, ⟨Function.update st.table (BitVec.ofNat 32 n) (some ⟨entry.file, cloexec⟩),
      st.dups + 1⟩)

def closeRange (st : KState φ) (first last flags : BitVec 32) : BitVec 64 × KState φ :=
  if flags &&& ~~~(closeRangeUnshare ||| closeRangeCloexec) ≠ 0 ∨ last < first then
    (SysErr.EINVAL.raw, st)
  else
    let close (entry : FdEntry φ) : Option (FdEntry φ) :=
      if flags &&& closeRangeCloexec = 0 then none else some ⟨entry.file, true⟩
    (0, ⟨fun fd => if first ≤ fd ∧ fd ≤ last then (st.table fd).bind close else st.table fd,
      st.dups⟩)

def answer (K : Kernel φ) (F : Files φ) (st : KState φ) : FdCall → BitVec 64 × KState φ
  | .dup fd => match st.table fd with
    | none => (SysErr.EBADF.raw, st)
    | some entry => K.install st entry 0 false
  | .dup2 oldfd newfd => match K.dup2 st oldfd newfd with
    | .ok st' => (newfd.setWidth 64, st')
    | .error e => (e.raw, st)
  | .dup3 oldfd newfd flags => match K.dup3 st oldfd newfd flags with
    | .ok st' => (newfd.setWidth 64, st')
    | .error e => (e.raw, st)
  | .fcntl fd cmd arg => match st.table fd with
    | none => (SysErr.EBADF.raw, st)
    | some entry =>
      if cmd = fGetfd then (if entry.cloexec then 1 else 0, st)
      else if cmd = fSetfd then
        (0, ⟨Function.update st.table fd (some ⟨entry.file, decide (arg &&& fdCloexec ≠ 0)⟩),
          st.dups⟩)
      else if cmd = fDupfdCloexec then
        if K.limit ≤ arg.toNat then (SysErr.EINVAL.raw, st) else K.install st entry arg.toNat true
      else (F.status entry.file cmd arg, st)
  | .close fd => match st.table fd with
    | none => (SysErr.EBADF.raw, st)
    | some entry =>
      (match F.flush entry.file with | none => 0 | some e => e.raw,
        ⟨Function.update st.table fd none, st.dups⟩)
  | .closeRange first last flags => closeRange st first last flags

end Kernel

end RustyLibc.Linux

namespace RustyLibc.Descriptors
open Linux Process

variable {φ : Type}

inductive Arch where
  | x86_64
  | aarch64
  deriving DecidableEq, Repr

section Source

variable (K : Kernel φ) (F : Files φ)

abbrev Call (φ α : Type) := KState φ → Except Errno α × KState φ

def syscall (c : FdCall) : Call φ (BitVec 32) := fun st =>
  ((fromRetI32 (K.answer F st c).1), (K.answer F st c).2)

def syscallUnit (c : FdCall) : Call φ Unit := fun st =>
  ((unitRet (K.answer F st c).1), (K.answer F st c).2)

def dup (fd : BitVec 32) : Call φ (BitVec 32) := syscall K F (.dup fd)

def fcntl (fd cmd arg : BitVec 32) : Call φ (BitVec 32) := syscall K F (.fcntl fd cmd arg)

def dup3 (oldfd newfd flags : BitVec 32) : Call φ (BitVec 32) :=
  syscall K F (.dup3 oldfd newfd flags)

def dup2 (oldfd newfd : BitVec 32) : Arch → Call φ (BitVec 32)
  | .x86_64 => syscall K F (.dup2 oldfd newfd)
  | .aarch64 => fun st =>
    if oldfd = newfd then
      match fcntl K F oldfd fGetfd 0 st with
      | (.error e, st) => (.error e, st)
      | (.ok _, st) => (.ok newfd, st)
    else syscall K F (.dup3 oldfd newfd 0) st

def close (fd : BitVec 32) : Call φ Unit := syscallUnit K F (.close fd)

def closeRange (first last flags : BitVec 32) : Call φ Unit :=
  syscallUnit K F (.closeRange first last flags)

end Source

inductive Op where
  | dup (fd : BitVec 32)
  | dup2 (oldfd newfd : BitVec 32)
  | dup3 (oldfd newfd flags : BitVec 32)
  | fcntl (fd cmd arg : BitVec 32)
  | close (fd : BitVec 32)
  | closeRange (first last flags : BitVec 32)
  deriving DecidableEq, Repr

abbrev Result := Except Errno (BitVec 32)

def unitResult (x : Except Errno Unit × KState φ) : Result × KState φ := (x.1.map fun _ => 0, x.2)

def perform (arch : Arch) (K : Kernel φ) (F : Files φ) : Op → Call φ (BitVec 32)
  | .dup fd => dup K F fd
  | .dup2 oldfd newfd => dup2 K F oldfd newfd arch
  | .dup3 oldfd newfd flags => dup3 K F oldfd newfd flags
  | .fcntl fd cmd arg => fcntl K F fd cmd arg
  | .close fd => fun st => unitResult (close K F fd st)
  | .closeRange first last flags => fun st => unitResult (closeRange K F first last flags st)

/-- A caller chooses its next operation by the results it has had so far, the
latest first. -/
abbrev Caller := List Result → Option Op

/-- The results and the table after at most `n` operations. What the kernel refuses
may change from one attempt to the next: `K i` is the kernel that the attempt after
`i` others finds. -/
def session (arch : Arch) (K : ℕ → Kernel φ) (F : Files φ) (caller : Caller) :
    ℕ → KState φ → List Result × KState φ
  | 0, st => ([], st)
  | n + 1, st =>
    let (results, st) := session arch K F caller n st
    match caller results with
    | none => (results, st)
    | some op =>
      let (result, st) := perform arch (K results.length) F op st
      (result :: results, st)

def duplicated (K : Kernel φ) (oldfd newfd : BitVec 32) : Call φ (BitVec 32) := fun st =>
  match K.dup2 st oldfd newfd with
  | .ok st' => (.ok newfd, st')
  | .error e => (.error (SysErr.errno e), st)

theorem dup2_eq (K : Kernel φ) (F : Files φ) (oldfd newfd : BitVec 32) (arch : Arch)
    (st : KState φ) : dup2 K F oldfd newfd arch st = duplicated K oldfd newfd st := by
  cases arch with
  | x86_64 =>
    rw [dup2, syscall, Kernel.answer, duplicated]
    cases K.dup2 st oldfd newfd with
    | ok st' => exact congrArg (·, st') (fromRetI32_setWidth newfd)
    | error e => exact congrArg (·, st) (fromRetI32_raw e)
  | aarch64 =>
    rw [dup2, duplicated]
    by_cases heq : oldfd = newfd
    · subst heq
      rw [Kernel.dup2, if_pos rfl]
      cases hopen : st.table oldfd with
      | none =>
        have hget : fcntl K F oldfd fGetfd 0 st = (.error (SysErr.errno .EBADF), st) := by
          rw [fcntl, syscall, Kernel.answer, hopen]
          exact congrArg (·, st) (fromRetI32_raw .EBADF)
        simp only [if_true, hget]
        rfl
      | some entry =>
        obtain ⟨flags, hget⟩ : ∃ flags, fcntl K F oldfd fGetfd 0 st = (.ok flags, st) := by
          rw [fcntl, syscall, Kernel.answer, hopen]
          cases hflag : entry.cloexec with
          | false => exact ⟨0, by simp [hflag]; rfl⟩
          | true => exact ⟨1, by simp [hflag]; rfl⟩
        simp only [if_true, hget]
        rfl
    · simp only [if_neg heq]
      rw [Kernel.dup2_of_ne K st heq, syscall, Kernel.answer]
      cases K.dup3 st oldfd newfd 0 with
      | ok st' => exact congrArg (·, st') (fromRetI32_setWidth newfd)
      | error e => exact congrArg (·, st) (fromRetI32_raw e)

theorem perform_arch (arch arch' : Arch) (K : Kernel φ) (F : Files φ) (op : Op) (st : KState φ) :
    perform arch K F op st = perform arch' K F op st := by
  cases op with
  | dup2 oldfd newfd => exact (dup2_eq K F oldfd newfd arch st).trans (dup2_eq ..).symm
  | dup fd => rfl
  | dup3 oldfd newfd flags => rfl
  | fcntl fd cmd arg => rfl
  | close fd => rfl
  | closeRange first last flags => rfl

/-- A caller gets the same results on both architectures and leaves the same
table, whatever it does and whatever the kernel refuses. -/
theorem session_arch (K : ℕ → Kernel φ) (F : Files φ) (caller : Caller) (n : ℕ) (st : KState φ) :
    session .x86_64 K F caller n st = session .aarch64 K F caller n st := by
  induction n with
  | zero => rfl
  | succ n ih =>
    rw [session, session, ih]
    rcases session .aarch64 K F caller n st with ⟨results, st'⟩
    cases hnext : caller results with
    | none => simp only [hnext]
    | some op =>
      simp only [hnext]
      rw [perform_arch .x86_64 .aarch64 (K results.length) F op st']

def inherited (table : FdTable φ) : FdTable φ := fun fd =>
  (table fd).filter fun entry => !entry.cloexec

def files (table : FdTable φ) (fd : BitVec 32) : Option φ := (table fd).map FdEntry.file

def assign (f : BitVec 32 → Option φ) (r : Redirect) : BitVec 32 → Option φ :=
  Function.update f r.newfd (f r.oldfd)

def Targeted (rs : List Redirect) (fd : BitVec 32) : Prop := ∃ r ∈ reals rs, r.newfd = fd

theorem redirect_real {K : Kernel φ} {st st' : KState φ} {r : Redirect} (hne : r.oldfd ≠ r.newfd)
    (h : redirect K st r = .ok st') :
    ∃ entry, st.table r.oldfd = some entry ∧
      st'.table = Function.update st.table r.newfd (some ⟨entry.file, false⟩) := by
  rw [redirect, Kernel.dup2_of_ne K st hne] at h
  unfold Kernel.dup3 at h
  split_ifs at h with hflags heq
  cases hold : st.table r.oldfd with
  | none => simp [hold] at h
  | some entry =>
    cases hrefuse : K.refuse st.dups with
    | some e => simp [hold, hrefuse] at h
    | none =>
      simp only [hold, hrefuse, Except.ok.injEq] at h
      subst h
      exact ⟨entry, rfl, by simp⟩

theorem redirect_same {K : Kernel φ} {st st' : KState φ} {r : Redirect} (heq : r.oldfd = r.newfd)
    (h : redirect K st r = .ok st') : st' = st := by
  rw [redirect, Kernel.dup2, if_pos heq] at h
  split_ifs at h
  exact (Except.ok.inj h).symm

theorem files_redirect {K : Kernel φ} {st st' : KState φ} {r : Redirect}
    (h : redirect K st r = .ok st') : files st'.table = assign (files st.table) r := by
  by_cases heq : r.oldfd = r.newfd
  · rw [redirect_same heq h, assign, heq, Function.update_eq_self]
  · obtain ⟨entry, hold, htable⟩ := redirect_real heq h
    funext fd
    by_cases hfd : fd = r.newfd
    · subst hfd
      simp [files, assign, htable, hold]
    · simp [files, assign, htable, Function.update_of_ne hfd]

theorem redirect_frame {K : Kernel φ} {st st' : KState φ} {r : Redirect}
    (h : redirect K st r = .ok st') (fd : BitVec 32) :
    (r.oldfd ≠ r.newfd ∧ r.newfd = fd ∧ ∃ file, st'.table fd = some ⟨file, false⟩) ∨
      ((r.oldfd = r.newfd ∨ r.newfd ≠ fd) ∧ st'.table fd = st.table fd) := by
  by_cases heq : r.oldfd = r.newfd
  · exact Or.inr ⟨Or.inl heq, by rw [redirect_same heq h]⟩
  · obtain ⟨entry, -, htable⟩ := redirect_real heq h
    by_cases hfd : r.newfd = fd
    · exact Or.inl ⟨heq, hfd, entry.file, by rw [htable, ← hfd, Function.update_self]⟩
    · exact Or.inr ⟨Or.inr hfd, by rw [htable, Function.update_of_ne (Ne.symm hfd)]⟩

theorem targeted_cons {r : Redirect} {rs : List Redirect} {fd : BitVec 32} :
    Targeted (r :: rs) fd ↔ (r.oldfd ≠ r.newfd ∧ r.newfd = fd) ∨ Targeted rs fd := by
  by_cases heq : r.oldfd = r.newfd
  · rw [Targeted, reals_cons_noop rs heq]
    exact ⟨Or.inr, fun h => h.resolve_left fun hr => hr.1 heq⟩
  · rw [Targeted, reals_cons_real rs heq, Targeted]
    simp [heq]

theorem fold_table {K : Kernel φ} {rs : List Redirect} {st st' : KState φ}
    (h : rs.foldlM (redirect K) st = .ok st') :
    files st'.table = rs.foldl assign (files st.table) ∧
      ∀ fd, (Targeted rs fd → ∃ file, st'.table fd = some ⟨file, false⟩) ∧
        (¬ Targeted rs fd → st'.table fd = st.table fd) := by
  induction rs generalizing st with
  | nil =>
    cases h
    refine ⟨rfl, fun fd => ⟨fun ht => ?_, fun _ => rfl⟩⟩
    obtain ⟨r, hr, -⟩ := ht
    exact absurd hr List.not_mem_nil
  | cons r rs ih =>
    rw [List.foldlM_cons] at h
    cases hr : redirect K st r with
    | error e =>
      rw [hr] at h
      cases h
    | ok st₁ =>
      rw [hr] at h
      obtain ⟨hfiles, hentries⟩ := ih h
      refine ⟨by rw [hfiles, files_redirect hr, List.foldl_cons], fun fd => ?_⟩
      obtain ⟨htarget, hother⟩ := hentries fd
      rw [targeted_cons]
      -- The later redirects decide; behind them it is the first.
      by_cases hrest : Targeted rs fd
      · exact ⟨fun _ => htarget hrest, fun hno => absurd (Or.inr hrest) hno⟩
      · rw [hother hrest]
        rcases redirect_frame hr fd with ⟨hne, hfd, hfile⟩ | ⟨hsame, hkept⟩
        · exact ⟨fun _ => hfile, fun hno => absurd (Or.inl ⟨hne, hfd⟩) hno⟩
        · refine ⟨fun ht => ?_, fun _ => hkept⟩
          rcases ht with ⟨hne, hfd⟩ | ht
          · rcases hsame with heq | hfd'
            · exact absurd heq hne
            · exact absurd hfd hfd'
          · exact absurd ht hrest

def marked (first : BitVec 32) (table : FdTable φ) : FdTable φ := fun fd =>
  if first ≤ fd then (table fd).bind fun entry => some ⟨entry.file, true⟩ else table fd

theorem closeRange_cloexec (K : Kernel φ) (F : Files φ) (st : KState φ) (first : BitVec 32) :
    closeRange K F first (BitVec.allOnes 32) closeRangeCloexec st =
      (.ok (), ⟨marked first st.table, st.dups⟩) := by
  have hle : ∀ fd : BitVec 32, fd ≤ BitVec.allOnes 32 := fun fd => by
    simp [BitVec.le_def]
    omega
  have hvalid : ¬ (closeRangeCloexec &&& ~~~(closeRangeUnshare ||| closeRangeCloexec) ≠ 0 ∨
      BitVec.allOnes 32 < first) := by
    rintro (hflags | hlast)
    · exact hflags (by decide)
    · exact absurd (hle first) (BitVec.not_le.mpr hlast)
  rw [closeRange, syscallUnit, Kernel.answer, Kernel.closeRange, if_neg hvalid]
  simp only [hle, and_true, if_neg (show ¬ closeRangeCloexec &&& closeRangeCloexec = 0 by decide)]
  rfl

theorem files_marked (first : BitVec 32) (table : FdTable φ) :
    files (marked first table) = files table := by
  funext fd
  unfold files marked
  split_ifs
  · cases table fd <;> rfl
  · rfl

/-- What a program started with the redirects `rs` is passed from `table` when
everything from `first` on has been marked. -/
def Passed (table : FdTable φ) (first : BitVec 32) (rs : List Redirect) (fd : BitVec 32) : Prop :=
  Targeted rs fd ∨ fd < first ∧ (inherited table fd).isSome

theorem inherited_marked {K : Kernel φ} {st st' : KState φ} {first : BitVec 32}
    {rs : List Redirect} (h : rs.foldlM (redirect K) ⟨marked first st.table, st.dups⟩ = .ok st')
    (fd : BitVec 32) :
    (Passed st.table first rs fd →
        files (inherited st'.table) fd = rs.foldl assign (files st.table) fd) ∧
      (¬ Passed st.table first rs fd → inherited st'.table fd = none) := by
  obtain ⟨hfiles, hentries⟩ := fold_table h
  rw [files_marked] at hfiles
  obtain ⟨htarget, hother⟩ := hentries fd
  have hopen : ∀ entry, st'.table fd = some entry → entry.cloexec = false →
      files (inherited st'.table) fd = rs.foldl assign (files st.table) fd := by
    intro entry hentry hkept
    rw [← hfiles]
    simp [files, inherited, hentry, hkept]
  by_cases ht : Targeted rs fd
  · obtain ⟨file, hentry⟩ := htarget ht
    exact ⟨fun _ => hopen _ hentry rfl, fun hno => absurd (Or.inl ht) hno⟩
  · have hsame : st'.table fd = marked first st.table fd := hother ht
    by_cases hlt : fd < first
    · have hkept : st'.table fd = st.table fd := by
        rw [hsame, marked, if_neg (BitVec.not_le.mpr hlt)]
      have hview : inherited st'.table fd = inherited st.table fd := by
        rw [inherited, hkept, inherited]
      constructor
      · intro hpassed
        obtain ⟨-, hsome⟩ := hpassed.resolve_left ht
        obtain ⟨entry, hentry⟩ := Option.isSome_iff_exists.mp hsome
        obtain ⟨hentry, hclo⟩ := Option.filter_eq_some_iff.mp hentry
        exact hopen entry (hkept.trans hentry) (by simpa using hclo)
      · intro hno
        rw [hview, ← Option.not_isSome_iff_eq_none]
        exact fun hsome => hno (Or.inr ⟨hlt, hsome⟩)
    · have hclosed : inherited st'.table fd = none := by
        rw [inherited, hsame, marked, if_pos (BitVec.not_lt.mp hlt)]
        cases st.table fd <;> rfl
      exact ⟨fun hpassed => absurd (hpassed.resolve_left ht).1 hlt, fun _ => hclosed⟩

/-- A program started on aarch64 behind `close_range(first, !0,
CLOSE_RANGE_CLOEXEC)` finds open exactly the targets of its redirects and, below
`first`, what it would have found anyway; each descriptor leads where the
redirects, read as assignments in order, say. A pair of equal descriptors is not
a redirect: it does not take the mark away again. -/
theorem spawned_inherits (K : Kernel φ) (F : Files φ) (regs : Aarch64.Regs) (fl : Aarch64.Flags)
    (x : ExecArgs) (rs : RedirectSlice) (st : KState φ) (hopen : Open st rs.list)
    (first : BitVec 32) :
    ∃ st₁ p, closeRange K F first (BitVec.allOnes 32) closeRangeCloexec st = (.ok (), st₁) ∧
      StepMachine.EndsWith (Aarch64.child rs K) Aarch64.Cfg.proc
        (Aarch64.start regs fl vforkFlags x rs st₁) p ∧
      (∀ st₂, rs.list.foldlM (redirect K) st₁ = .ok st₂ → execError K x st₂ = none →
        p.status = .replaced) ∧
      (p.status = .replaced → ∀ fd,
        (Passed st.table first rs.list fd →
            files (inherited p.kern.table) fd = rs.list.foldl assign (files st.table) fd) ∧
          (¬ Passed st.table first rs.list fd → inherited p.kern.table fd = none)) := by
  have hopen₁ : Open ⟨marked first st.table, st.dups⟩ rs.list := by
    intro r hr
    have hsome := hopen r hr
    rw [← Option.isSome_map (f := FdEntry.file)] at hsome ⊢
    exact (congrArg Option.isSome (congrFun (files_marked first st.table) r.oldfd)).trans hsome
  obtain ⟨c, hreach, hc⟩ := Aarch64.ready_start (K := K) x rs regs fl vforkFlags
    ⟨marked first st.table, st.dups⟩
  have hend := (Aarch64.ready_endsWith (K := K) hc).of_reaches hreach
  rw [List.drop_zero] at hend
  have hfollows : Follows K Aarch64.dup3Call x ⟨marked first st.table, st.dups⟩ rs.list
      (plan K Aarch64.dup3Call x rs.list ⟨marked first st.table, st.dups⟩ []) :=
    follows_plan hopen₁
  refine ⟨_, _, closeRange_cloexec K F st first, hend, fun st₂ happ hexec =>
    ((hfollows.applied st₂ happ).2.1 hexec).2, fun hreplaced fd => ?_⟩
  rcases fold_cases (K := K) rs.list ⟨marked first st.table, st.dups⟩ with
    ⟨st', happ⟩ | ⟨k, r, st', e, hk, hpre, hr⟩
  · rw [(hfollows.applied st' happ).1]
    exact inherited_marked happ fd
  · have hexited := (hfollows.failed k r st' e hk hpre hr).2.2
    rw [hreplaced] at hexited
    cases hexited

def plainFiles : Files ℕ where
  status := fun _ _ _ => 0
  flush := fun _ => none

theorem spawned_inherits_twoReal :
    ∃ st₁ p, closeRange plainKernel plainFiles 3 (BitVec.allOnes 32) closeRangeCloexec twoOpen =
        (.ok (), st₁) ∧
      StepMachine.EndsWith (Aarch64.child twoReal plainKernel) Aarch64.Cfg.proc
        (Aarch64.start (fun _ => 0) ⟨false, false, false, false⟩ vforkFlags ⟨1, 2, 3⟩ twoReal st₁) p ∧
      files (inherited p.kern.table) 0 = some 30 ∧ inherited p.kern.table 3 = none := by
  obtain ⟨st₁, p, hclose, hend, hruns, hview⟩ := spawned_inherits plainKernel plainFiles
    (fun _ => 0) ⟨false, false, false, false⟩ ⟨1, 2, 3⟩ twoReal twoOpen open_twoReal 3
  have hst₁ := congrArg Prod.snd
    ((closeRange_cloexec plainKernel plainFiles twoOpen 3).symm.trans hclose)
  have hreplaced : p.status = .replaced := by
    subst hst₁
    exact hruns _ rfl rfl
  refine ⟨st₁, p, hclose, hend, ?_, ?_⟩
  · have hzero : Passed twoOpen.table 3 twoReal.list 0 := Or.inl ⟨⟨3, 0⟩, by decide, rfl⟩
    rw [(hview hreplaced 0).1 hzero]
    decide
  · refine (hview hreplaced 3).2 fun hpassed => ?_
    rcases hpassed with ⟨r, hr, hfd⟩ | ⟨hlt, -⟩
    · revert r
      decide
    · exact absurd hlt (by decide)

end RustyLibc.Descriptors
