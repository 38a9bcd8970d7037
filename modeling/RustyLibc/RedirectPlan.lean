import RustyLibc.LinuxKernel
import RustyLibc.StepMachine
import Mathlib.Data.List.Basic

/-!
# What a redirecting child is for (`process.rs`, `vfork_exec_redirected`)

The contract of the two trampolines, stated once for both. `Follows` says, in
terms of the left fold of `dup2` over the redirect list, which calls the child
issues and how it ends. `plan` is the one ending with that property: the
redirects are applied in order until one fails, equal pairs being skipped, and
`execve` follows only if none did.
-/

namespace RustyLibc.Process
open Linux StepMachine

variable {φ : Type}

structure Redirect where
  oldfd : BitVec 32
  newfd : BitVec 32
  deriving DecidableEq, Repr

def reals (rs : List Redirect) : List Redirect := rs.filter fun r => r.oldfd ≠ r.newfd

/-- A `&[Redirect]` in memory: `word` gives the 32-bit word at each address and
the list is laid out from `base` in records of eight bytes. -/
structure RedirectSlice where
  list : List Redirect
  base : BitVec 64
  word : BitVec 64 → BitVec 32
  size_lt : 8 * list.length < 2 ^ 63
  oldfd_at : ∀ (i : ℕ) (r : Redirect), list[i]? = some r →
    word (base + 8 * BitVec.ofNat 64 i) = r.oldfd
  newfd_at : ∀ (i : ℕ) (r : Redirect), list[i]? = some r →
    word (base + 8 * BitVec.ofNat 64 i + 4) = r.newfd

def RedirectSlice.ofList (list : List Redirect) (h : 8 * list.length < 2 ^ 63) : RedirectSlice where
  list := list
  base := 0x10000
  word := fun a => match list[(a - 0x10000).toNat / 8]? with
    | none => 0
    | some r => if (a - 0x10000).toNat % 8 = 0 then r.oldfd else r.newfd
  size_lt := h
  oldfd_at := by
    intro i r hr
    obtain ⟨hlt, -⟩ := List.getElem?_eq_some_iff.mp hr
    have hoff : ((0x10000 : BitVec 64) + 8 * BitVec.ofNat 64 i - 0x10000).toNat = 8 * i := by
      bv_omega
    have hdiv : 8 * i / 8 = i := by omega
    have hmod : 8 * i % 8 = 0 := by omega
    simp only [hoff, hdiv, hr, if_pos hmod]
  newfd_at := by
    intro i r hr
    obtain ⟨hlt, -⟩ := List.getElem?_eq_some_iff.mp hr
    have hoff : ((0x10000 : BitVec 64) + 8 * BitVec.ofNat 64 i + 4 - 0x10000).toNat = 8 * i + 4 := by
      bv_omega
    have hdiv : (8 * i + 4) / 8 = i := by omega
    have hmod : (8 * i + 4) % 8 ≠ 0 := by omega
    simp only [hoff, hdiv, hr, if_neg hmod]

structure ExecArgs where
  path : BitVec 64
  argv : BitVec 64
  envp : BitVec 64

def ExecArgs.call (x : ExecArgs) : Call := .execve x.path x.argv x.envp

def redirect (K : Kernel φ) (st : KState φ) (r : Redirect) : Except SysErr (KState φ) :=
  K.dup2 st r.oldfd r.newfd

def execError (K : Kernel φ) (x : ExecArgs) (st : KState φ) : Option SysErr :=
  K.exec st.table x.path x.argv x.envp

def cloneVm : BitVec 64 := 0x100
def cloneVfork : BitVec 64 := 0x4000
def sigchld : BitVec 64 := 17

def vforkFlags : BitVec 64 := cloneVfork ||| cloneVm ||| sigchld

/-- The contract of a child started with the table of `st` and the list `rs`;
`dup` is the call the architecture uses for a pair that is not a no-op. If every
redirect succeeds, there is one call for each real pair and then `execve`; if
entry `k` fails, only the entries before it are applied and `execve` is never
issued; and the exit code 127 means that `execve` itself failed. -/
structure Follows (K : Kernel φ) (dup : Redirect → Call) (x : ExecArgs) (st : KState φ)
    (rs : List Redirect) (p : Proc φ) : Prop where
  applied : ∀ st', rs.foldlM (redirect K) st = .ok st' → p.kern = st' ∧
    (execError K x st' = none →
      p.calls = (reals rs).map dup ++ [x.call] ∧ p.status = .replaced) ∧
    (execError K x st' ≠ none →
      p.calls = (reals rs).map dup ++ [x.call, .exitGroup 127] ∧ p.status = .exited 127)
  failed : ∀ (k : ℕ) (r : Redirect) (st' : KState φ) (e : SysErr), rs[k]? = some r →
    (rs.take k).foldlM (redirect K) st = .ok st' → redirect K st' r = .error e →
    p.kern = st' ∧ p.calls = (reals (rs.take (k + 1))).map dup ++ [.exitGroup 126] ∧
      p.status = .exited 126
  exit127 : p.status = .exited 127 ↔
    ∃ st', rs.foldlM (redirect K) st = .ok st' ∧ execError K x st' ≠ none

def execEnding (K : Kernel φ) (x : ExecArgs) (st : KState φ) (calls : List Call) : Proc φ :=
  match execError K x st with
  | none => ⟨st, calls ++ [x.call], .replaced⟩
  | some _ => ⟨st, calls ++ [x.call, .exitGroup 127], .exited 127⟩

def failEnding (st : KState φ) (calls : List Call) : Proc φ :=
  ⟨st, calls ++ [.exitGroup 126], .exited 126⟩

def plan (K : Kernel φ) (dup : Redirect → Call) (x : ExecArgs) :
    List Redirect → KState φ → List Call → Proc φ
  | [], st, calls => execEnding K x st calls
  | r :: rs, st, calls =>
    if r.oldfd = r.newfd then plan K dup x rs st calls
    else match redirect K st r with
      | .error _ => failEnding st (calls ++ [dup r])
      | .ok st' => plan K dup x rs st' (calls ++ [dup r])

def Open (st : KState φ) (rs : List Redirect) : Prop := ∀ r ∈ rs, (st.table r.oldfd).isSome

instance (st : KState φ) (rs : List Redirect) : Decidable (Open st rs) :=
  inferInstanceAs (Decidable (∀ r ∈ rs, (st.table r.oldfd).isSome))

variable {K : Kernel φ} {dup : Redirect → Call} {x : ExecArgs}

/-- A machine that comes to `execve` ends as it should, if it exits with 127 where
`execve` comes back. -/
theorem endsWith_execEnding {σ : Type} {next : σ → Option σ} {proc : σ → Proc φ} {c : σ}
    {st : KState φ} {calls : List Call}
    (hhalt : ∀ t, (proc t).status ≠ .running → next t = none)
    (hgone : execError K x st = none →
      ∃ t, Reaches next c t ∧ proc t = ⟨st, calls ++ [x.call], .replaced⟩)
    (hback : ∀ e, execError K x st = some e →
      ∃ t, Reaches next c t ∧ proc t = ⟨st, calls ++ [x.call, .exitGroup 127], .exited 127⟩) :
    EndsWith next proc c (execEnding K x st calls) := by
  unfold execEnding
  cases hx : execError K x st with
  | none =>
    obtain ⟨t, hreach, hproc⟩ := hgone hx
    exact ⟨t, ⟨hreach, hhalt t (by simp [hproc])⟩, hproc⟩
  | some e =>
    obtain ⟨t, hreach, hproc⟩ := hback e hx
    exact ⟨t, ⟨hreach, hhalt t (by simp [hproc])⟩, hproc⟩

theorem Open.tail {st : KState φ} {r : Redirect} {rs : List Redirect} (h : Open st (r :: rs)) :
    Open st rs := fun s hs => h s (List.mem_cons_of_mem _ hs)

theorem Open.redirect {st st' : KState φ} {r : Redirect} {rs : List Redirect}
    (h : Open st rs) (hr : redirect K st r = .ok st') : Open st' rs :=
  fun s hs => Kernel.dup2_ok_open hr (h s hs)

theorem redirect_noop {st : KState φ} {r : Redirect} {rs : List Redirect} (h : Open st (r :: rs))
    (heq : r.oldfd = r.newfd) : redirect K st r = .ok st := by
  have hopen := h r List.mem_cons_self
  rw [redirect, ← heq]
  exact Kernel.dup2_self hopen

theorem reals_cons_noop {r : Redirect} (rs : List Redirect) (heq : r.oldfd = r.newfd) :
    reals (r :: rs) = reals rs := by
  simp [reals, heq]

theorem reals_cons_real {r : Redirect} (rs : List Redirect) (hne : r.oldfd ≠ r.newfd) :
    reals (r :: rs) = r :: reals rs := by
  simp [reals, hne]

theorem plan_real {r : Redirect} (rs : List Redirect) (hne : r.oldfd ≠ r.newfd) (st : KState φ)
    (calls : List Call) :
    plan K dup x (r :: rs) st calls = match redirect K st r with
      | .error _ => failEnding st (calls ++ [dup r])
      | .ok st' => plan K dup x rs st' (calls ++ [dup r]) := by
  rw [plan, if_neg hne]

theorem plan_reals (rs : List Redirect) (st : KState φ) (calls : List Call) :
    plan K dup x (reals rs) st calls = plan K dup x rs st calls := by
  induction rs generalizing st calls with
  | nil => rfl
  | cons r rs ih =>
    by_cases heq : r.oldfd = r.newfd
    · rw [reals_cons_noop rs heq, ih, plan, if_pos heq]
    · rw [reals_cons_real rs heq, plan_real _ heq, plan_real _ heq]
      cases redirect K st r with
      | error e => rfl
      | ok st' => exact ih st' _

theorem calls_plan (rs : List Redirect) (st : KState φ) (calls : List Call) :
    calls <+: (plan K dup x rs st calls).calls := by
  induction rs generalizing st calls with
  | nil =>
    rw [plan, execEnding]
    cases execError K x st with
    | none => exact List.prefix_append _ _
    | some e => exact List.prefix_append _ _
  | cons r rs ih =>
    by_cases heq : r.oldfd = r.newfd
    · rw [plan, if_pos heq]
      exact ih st calls
    · rw [plan_real _ heq]
      cases redirect K st r with
      | error e =>
        rw [failEnding, List.append_assoc]
        exact List.prefix_append _ _
      | ok st' => exact (List.prefix_append _ _).trans (ih st' _)

theorem calls_plan_real {r : Redirect} (rs : List Redirect) (hne : r.oldfd ≠ r.newfd)
    (st : KState φ) (calls : List Call) :
    calls ++ [dup r] <+: (plan K dup x (r :: rs) st calls).calls := by
  rw [plan_real _ hne]
  cases redirect K st r with
  | error e => exact List.prefix_append _ _
  | ok st' => exact calls_plan rs st' _

theorem plan_of_ok {rs : List Redirect} {st st' : KState φ} (hopen : Open st rs)
    (h : rs.foldlM (redirect K) st = .ok st') (calls : List Call) :
    plan K dup x rs st calls = execEnding K x st' (calls ++ (reals rs).map dup) := by
  induction rs generalizing st calls with
  | nil =>
    cases h
    simp [plan, reals]
  | cons r rs ih =>
    rw [List.foldlM_cons] at h
    by_cases heq : r.oldfd = r.newfd
    · rw [redirect_noop hopen heq] at h
      rw [plan, if_pos heq, reals_cons_noop rs heq]
      exact ih hopen.tail h calls
    · cases hr : redirect K st r with
      | error e => rw [hr] at h; cases h
      | ok st₁ =>
        rw [hr] at h
        rw [plan, if_neg heq, hr, reals_cons_real rs heq, List.map_cons]
        simpa using ih (hopen.tail.redirect hr) h (calls ++ [dup r])

theorem plan_of_fail {rs : List Redirect} {st st' : KState φ} (hopen : Open st rs) {k : ℕ}
    {r : Redirect} {e : SysErr} (hk : rs[k]? = some r)
    (hpre : (rs.take k).foldlM (redirect K) st = .ok st') (hr : redirect K st' r = .error e)
    (calls : List Call) :
    plan K dup x rs st calls =
      failEnding st' (calls ++ (reals (rs.take (k + 1))).map dup) := by
  induction rs generalizing st calls k with
  | nil => simp at hk
  | cons s rs ih =>
    cases k with
    | zero =>
      obtain rfl : s = r := by simpa using hk
      obtain rfl : st = st' := Except.ok.inj hpre
      have hne : s.oldfd ≠ s.newfd := fun heq => by
        rw [redirect_noop hopen heq] at hr
        cases hr
      rw [plan, if_neg hne, hr]
      simp [reals, hne]
    | succ k =>
      rw [List.take_succ_cons, List.foldlM_cons] at hpre
      rw [List.getElem?_cons_succ] at hk
      by_cases heq : s.oldfd = s.newfd
      · rw [redirect_noop hopen heq] at hpre
        rw [plan, if_pos heq, List.take_succ_cons, reals_cons_noop _ heq]
        exact ih hopen.tail hk hpre calls
      · cases hs : redirect K st s with
        | error e' => rw [hs] at hpre; cases hpre
        | ok st₁ =>
          rw [hs] at hpre
          rw [plan, if_neg heq, hs, List.take_succ_cons, reals_cons_real _ heq, List.map_cons]
          simpa using ih (hopen.tail.redirect hs) hk hpre (calls ++ [dup s])

theorem fold_cases (rs : List Redirect) (st : KState φ) :
    (∃ st', rs.foldlM (redirect K) st = .ok st') ∨
      ∃ k r st' e, rs[k]? = some r ∧ (rs.take k).foldlM (redirect K) st = .ok st' ∧
        redirect K st' r = .error e := by
  induction rs generalizing st with
  | nil => exact Or.inl ⟨st, rfl⟩
  | cons r rs ih =>
    rw [List.foldlM_cons]
    cases hr : redirect K st r with
    | error e => exact Or.inr ⟨0, r, st, e, rfl, rfl, hr⟩
    | ok st₁ =>
      rcases ih st₁ with ⟨st', h⟩ | ⟨k, s, st', e, hk, hpre, hs⟩
      · exact Or.inl ⟨st', h⟩
      · refine Or.inr ⟨k + 1, s, st', e, hk, ?_, hs⟩
        rw [List.take_succ_cons, List.foldlM_cons, hr]
        exact hpre

theorem fold_ne_ok {rs : List Redirect} {st st' : KState φ} {k : ℕ} {r : Redirect} {e : SysErr}
    (hk : rs[k]? = some r) (hpre : (rs.take k).foldlM (redirect K) st = .ok st')
    (hr : redirect K st' r = .error e) (st'' : KState φ) :
    rs.foldlM (redirect K) st ≠ .ok st'' := by
  intro h
  obtain ⟨hlt, hget⟩ := List.getElem?_eq_some_iff.mp hk
  have hsplit : rs = rs.take k ++ r :: rs.drop (k + 1) := by
    rw [← hget, List.getElem_cons_drop, List.take_append_drop]
  rw [hsplit, List.foldlM_append, hpre] at h
  have herr : (r :: rs.drop (k + 1)).foldlM (redirect K) st' = .error e := by
    rw [List.foldlM_cons, hr]
    rfl
  cases herr.symm.trans h

theorem follows_plan {rs : List Redirect} {st : KState φ} (hopen : Open st rs) :
    Follows K dup x st rs (plan K dup x rs st []) where
  applied := by
    intro st' h
    rw [plan_of_ok hopen h, execEnding, List.nil_append]
    cases execError K x st' with
    | none => simp
    | some e => simp
  failed := by
    intro k r st' e hk hpre hr
    rw [plan_of_fail hopen hk hpre hr]
    exact ⟨rfl, rfl, rfl⟩
  exit127 := by
    rcases fold_cases (K := K) rs st with ⟨st', h⟩ | ⟨k, r, st', e, hk, hpre, hr⟩
    · rw [plan_of_ok hopen h, execEnding, h]
      cases hx : execError K x st' with
      | none => simp [hx]
      | some e => simp [hx]
    · rw [plan_of_fail hopen hk hpre hr]
      constructor
      · intro h
        exact absurd h (by simp [failEnding])
      · intro h
        obtain ⟨st'', h, -⟩ := h
        exact absurd h (fold_ne_ok hk hpre hr st'')

theorem Follows.unique {rs : List Redirect} {st : KState φ} {p q : Proc φ}
    (hp : Follows K dup x st rs p) (hq : Follows K dup x st rs q) : p = q := by
  obtain ⟨pk, pc, ps⟩ := p
  obtain ⟨qk, qc, qs⟩ := q
  rcases fold_cases (K := K) rs st with ⟨st', h⟩ | ⟨k, r, st', e, hk, hpre, hr⟩
  · obtain ⟨hpk, hpn, hps⟩ := hp.applied st' h
    obtain ⟨hqk, hqn, hqs⟩ := hq.applied st' h
    by_cases hx : execError K x st' = none
    · simp_all
    · simp_all
  · have h₁ := hp.failed k r st' e hk hpre hr
    have h₂ := hq.failed k r st' e hk hpre hr
    simp_all

theorem follows_iff {rs : List Redirect} {st : KState φ} (hopen : Open st rs) {p : Proc φ} :
    Follows K dup x st rs p ↔ p = plan K dup x rs st [] := by
  constructor
  · exact fun hp => hp.unique (follows_plan hopen)
  · intro heq
    obtain rfl := heq
    exact follows_plan hopen

def plainKernel : Kernel ℕ where
  limit := 1024
  limit_le := by decide
  refuse := fun _ => none
  exec := fun _ _ _ _ => none

def twoOpen : KState ℕ where
  table := fun fd => if fd = 3 then some ⟨30, false⟩ else if fd = 4 then some ⟨40, false⟩ else none
  dups := 0

def twoReal : RedirectSlice := .ofList [⟨3, 0⟩, ⟨4, 1⟩] (by decide)

def oneReal : RedirectSlice := .ofList [⟨3, 1⟩, ⟨4, 4⟩] (by decide)

theorem open_twoReal : Open twoOpen twoReal.list := by
  decide

theorem open_oneReal : Open twoOpen oneReal.list := by
  decide

end RustyLibc.Process
