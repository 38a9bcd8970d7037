import RustyLibc.X86Redirect

/-!
# When the clobbered loop index does no harm

The loop of `vfork_execve_redirected` keeps its index in `rcx`, and `syscall`
puts the return address there. After the first successful `dup2` the loop goes
on from the index that is one more than that address, as it does after every
later one. `ClobberHarmless` says for which lists the child meets the contract
all the same.
-/

namespace RustyLibc.X86
open Linux StepMachine Process

variable {φ : Type} {M : Machine} {K : Kernel φ} {x : ExecArgs} {rs : RedirectSlice}

/-- `resume` is the index at which the loop goes on after a successful `dup2`:
no pair is real; or the first real pair fails; or it succeeds, no real pair
stands at `resume` or later, and there is no other real pair at all; or it
succeeds, the first real pair `w` from `resume` on is attempted until it fails,
and the list asks for just these attempts. -/
def ClobberHarmless (K : Kernel φ) (st : KState φ) (list : List Redirect) (resume : ℕ) : Prop :=
  match reals list with
  | [] => True
  | r :: rest => match redirect K st r with
    | .error _ => True
    | .ok st₁ => match reals (list.drop resume) with
      | [] => rest = []
      | w :: _ => ∃ p st' e, rest.take (p + 1) = List.replicate (p + 1) w ∧
          (List.replicate p w).foldlM (redirect K) st₁ = .ok st' ∧ redirect K st' w = .error e

theorem dup2Call_injective : Function.Injective dup2Call := by
  intro r s h
  obtain ⟨o, n⟩ := r
  obtain ⟨o', n'⟩ := s
  simpa [dup2Call] using h

theorem real_of_mem_reals {r : Redirect} {list : List Redirect} (h : r ∈ reals list) :
    r.oldfd ≠ r.newfd := by
  simpa using (List.mem_filter.mp h).2

theorem plan_head {rest : List Redirect} (hreal : ∀ r ∈ rest, r.oldfd ≠ r.newfd) {st : KState φ}
    {calls more : List Call} {call : Call}
    (h : (plan K dup2Call x rest st calls).calls = calls ++ call :: more) :
    (rest = [] ∧ call = x.call) ∨ ∃ r rest', rest = r :: rest' ∧ call = dup2Call r := by
  cases rest with
  | nil =>
    refine Or.inl ⟨rfl, ?_⟩
    rw [plan, execEnding] at h
    cases hx : execError K x st with
    | none =>
      rw [hx] at h
      exact (List.cons.inj (List.append_cancel_left h)).1.symm
    | some e =>
      rw [hx] at h
      exact (List.cons.inj (List.append_cancel_left h)).1.symm
  | cons r rest' =>
    refine Or.inr ⟨r, rest', rfl, ?_⟩
    have hprefix : calls ++ [dup2Call r] <+: (plan K dup2Call x (r :: rest') st calls).calls :=
      calls_plan_real rest' (hreal r List.mem_cons_self) st calls
    obtain ⟨t, ht⟩ := hprefix
    rw [h, List.append_assoc] at ht
    exact (List.cons.inj (List.append_cancel_left ht)).1.symm

theorem plan_eq_exec_iff {rest : List Redirect} (hreal : ∀ r ∈ rest, r.oldfd ≠ r.newfd)
    {st : KState φ} {calls : List Call} :
    plan K dup2Call x rest st calls = execEnding K x st calls ↔ rest = [] := by
  constructor
  · intro h
    have hcalls : ∃ more, (plan K dup2Call x rest st calls).calls = calls ++ x.call :: more := by
      rw [h, execEnding]
      cases execError K x st with
      | none => exact ⟨_, rfl⟩
      | some e => exact ⟨_, rfl⟩
    obtain ⟨more, hmore⟩ := hcalls
    rcases plan_head hreal hmore with ⟨hnil, -⟩ | ⟨r, rest', -, hcall⟩
    · exact hnil
    · simp [ExecArgs.call, dup2Call] at hcall
  · intro heq
    obtain rfl := heq
    rfl

theorem plan_repeat_head {w : Redirect} {p : ℕ} {rest : List Redirect}
    (hreal : ∀ r ∈ rest, r.oldfd ≠ r.newfd) {st st' : KState φ} {calls : List Call}
    (h : plan K dup2Call x rest st calls =
      failEnding st' (calls ++ List.replicate (p + 1) (dup2Call w))) :
    ∃ rest', rest = w :: rest' := by
  have hcalls : (plan K dup2Call x rest st calls).calls =
      calls ++ dup2Call w :: (List.replicate p (dup2Call w) ++ [.exitGroup 126]) := by
    rw [h]
    simp [failEnding, List.replicate_succ]
  rcases plan_head hreal hcalls with ⟨-, hcall⟩ | ⟨r, rest', rfl, hcall⟩
  · simp [ExecArgs.call, dup2Call] at hcall
  · exact ⟨rest', by rw [dup2Call_injective hcall]⟩

theorem take_repeat_head {w : Redirect} {p : ℕ} {rest : List Redirect}
    (h : rest.take (p + 1) = List.replicate (p + 1) w) : ∃ rest', rest = w :: rest' := by
  cases rest with
  | nil => simp [List.replicate_succ] at h
  | cons r rest' =>
    rw [List.take_succ_cons, List.replicate_succ] at h
    exact ⟨rest', by rw [(List.cons.inj h).1]⟩

theorem plan_eq_repeat_iff {w : Redirect} {p : ℕ} {rest : List Redirect}
    (hreal : ∀ r ∈ rest, r.oldfd ≠ r.newfd) {st st' : KState φ} {e : SysErr} {calls : List Call}
    (hpre : (List.replicate p w).foldlM (redirect K) st = .ok st')
    (hw : redirect K st' w = .error e) :
    plan K dup2Call x rest st calls =
        failEnding st' (calls ++ List.replicate (p + 1) (dup2Call w)) ↔
      rest.take (p + 1) = List.replicate (p + 1) w := by
  induction p generalizing rest st calls with
  | zero =>
    constructor
    · intro h
      obtain ⟨rest', rfl⟩ := plan_repeat_head hreal h
      rfl
    · intro h
      obtain ⟨rest', rfl⟩ := take_repeat_head h
      obtain rfl : st = st' := Except.ok.inj hpre
      rw [plan_real rest' (hreal w List.mem_cons_self), hw]
      rfl
  | succ p ih =>
    rw [List.replicate_succ, List.foldlM_cons] at hpre
    cases hst : redirect K st w with
    | error e' => rw [hst] at hpre; cases hpre
    | ok st₁ =>
      rw [hst] at hpre
      have hcons : ∀ rest', rest = w :: rest' →
          (plan K dup2Call x rest st calls =
              failEnding st' (calls ++ List.replicate (p + 1 + 1) (dup2Call w)) ↔
            rest.take (p + 1 + 1) = List.replicate (p + 1 + 1) w) := by
        intro rest' heq
        obtain rfl := heq
        have hreal' : ∀ r ∈ rest', r.oldfd ≠ r.newfd :=
          fun r hr => hreal r (List.mem_cons_of_mem _ hr)
        have hih : plan K dup2Call x rest' st₁ (calls ++ [dup2Call w]) =
            failEnding st' (calls ++ [dup2Call w] ++ List.replicate (p + 1) (dup2Call w)) ↔
              rest'.take (p + 1) = List.replicate (p + 1) w := ih hreal' hpre
        rw [List.append_assoc, List.singleton_append, ← List.replicate_succ] at hih
        rw [plan_real rest' (hreal w List.mem_cons_self), hst, hih, List.take_succ_cons,
          List.replicate_succ (n := p + 1), List.cons_inj_right]
      constructor
      · intro h
        obtain ⟨rest', hrest⟩ := plan_repeat_head hreal h
        exact (hcons rest' hrest).mp h
      · intro h
        obtain ⟨rest', hrest⟩ := take_repeat_head h
        exact (hcons rest' hrest).mpr h

theorem attempt_ok {i : ℕ} (hword : M.word = rs.word) {w : Redirect} {ws : List Redirect}
    (hw : reals (rs.list.drop i) = w :: ws) {st st' : KState φ} (hst : redirect K st w = .ok st')
    {calls : List Call} {c : Cfg φ} (hc : Ready x rs i st calls c) :
    ∃ d, Reaches (child M K) c d ∧
      Ready x rs (M.addr 13 + 1).toNat st' (calls ++ [dup2Call w]) d := by
  have hpass := ready_pass (M := M) (K := K) hword hc
  rw [hw] at hpass
  simpa only [Attempt, hst] using hpass

theorem attempt_error {i : ℕ} (hword : M.word = rs.word) {w : Redirect} {ws : List Redirect}
    (hw : reals (rs.list.drop i) = w :: ws) {st : KState φ} {e : SysErr}
    (hst : redirect K st w = .error e) {calls : List Call} {c : Cfg φ}
    (hc : Ready x rs i st calls c) :
    EndsWith (child M K) Cfg.proc c (failEnding st (calls ++ [dup2Call w])) := by
  have hpass := ready_pass (M := M) (K := K) hword hc
  rw [hw] at hpass
  simpa only [Attempt, hst] using hpass

theorem attempt_none {i : ℕ} (hword : M.word = rs.word) (hw : reals (rs.list.drop i) = [])
    {st : KState φ} {calls : List Call} {c : Cfg φ} (hc : Ready x rs i st calls c) :
    EndsWith (child M K) Cfg.proc c (execEnding K x st calls) := by
  have hpass := ready_pass (M := M) (K := K) hword hc
  rwa [hw] at hpass

section Resumed

variable (hword : M.word = rs.word) {w : Redirect} {ws : List Redirect}
  (hw : reals (rs.list.drop (M.addr 13 + 1).toNat) = w :: ws)
include hword hw

theorem resumed_ends {p : ℕ} {st st' : KState φ} {e : SysErr} {calls : List Call} {c : Cfg φ}
    (hc : Ready x rs (M.addr 13 + 1).toNat st calls c)
    (hpre : (List.replicate p w).foldlM (redirect K) st = .ok st')
    (he : redirect K st' w = .error e) :
    EndsWith (child M K) Cfg.proc c
      (failEnding st' (calls ++ List.replicate (p + 1) (dup2Call w))) := by
  induction p generalizing st calls c with
  | zero =>
    obtain rfl : st = st' := Except.ok.inj hpre
    exact attempt_error hword hw he hc
  | succ p ih =>
    rw [List.replicate_succ, List.foldlM_cons] at hpre
    cases hst : redirect K st w with
    | error e' => rw [hst] at hpre; cases hpre
    | ok st₁ =>
      rw [hst] at hpre
      obtain ⟨d, hcd, hd⟩ := attempt_ok (M := M) hword hw hst hc
      have hend := ih hd hpre
      rw [List.append_assoc, List.singleton_append, ← List.replicate_succ] at hend
      exact hend.of_reaches hcd

theorem resumed_diverges {st : KState φ} {calls : List Call} {c : Cfg φ}
    (hc : Ready x rs (M.addr 13 + 1).toNat st calls c)
    (hok : ∀ n, ∃ st', (List.replicate n w).foldlM (redirect K) st = .ok st') (q : Proc φ) :
    ¬ EndsWith (child M K) Cfg.proc c q := by
  let I : Cfg φ → Prop := fun c => ∃ st calls, Ready x rs (M.addr 13 + 1).toNat st calls c ∧
    ∀ n, ∃ st', (List.replicate n w).foldlM (redirect K) st = .ok st'
  have hI : ∀ c, I c → ∃ t u, Step (child M K) c t ∧ Reaches (child M K) t u ∧ I u := by
    intro c h
    obtain ⟨st, calls, hc, hok⟩ := h
    cases hst : redirect K st w with
    | error e =>
      obtain ⟨st', h⟩ := hok 1
      rw [List.replicate_one, List.foldlM_cons, hst] at h
      cases h
    | ok st₁ =>
      obtain ⟨d, hcd, hd⟩ := attempt_ok (M := M) hword hw hst hc
      have hId : I d := by
        refine ⟨st₁, _, hd, fun n => ?_⟩
        obtain ⟨st', h⟩ := hok (n + 1)
        rw [List.replicate_succ, List.foldlM_cons, hst] at h
        exact ⟨st', h⟩
      rcases hcd.cases_head with rfl | ⟨t, hct, htd⟩
      · -- The two logs differ in length.
        obtain ⟨_, _, hc', -⟩ := hc
        obtain ⟨_, _, hd', -⟩ := hd
        have hcalls := congrArg (fun c => c.proc.calls) (hc'.symm.trans hd')
        simp at hcalls
      · exact ⟨t, d, hct, htd, hId⟩
  intro h
  obtain ⟨d, hd, -⟩ := h
  exact not_endsIn_of_recurrent hI ⟨st, calls, hc, hok⟩ d hd

end Resumed

theorem fold_repeat_cases (K : Kernel φ) (w : Redirect) (st : KState φ) :
    (∀ n, ∃ st', (List.replicate n w).foldlM (redirect K) st = .ok st') ∨
      ∃ p st' e, (List.replicate p w).foldlM (redirect K) st = .ok st' ∧
        redirect K st' w = .error e := by
  by_cases hall : ∀ n, ∃ st', (List.replicate n w).foldlM (redirect K) st = .ok st'
  · exact Or.inl hall
  · push Not at hall
    obtain ⟨n, hn⟩ := hall
    rcases fold_cases (K := K) (List.replicate n w) st with ⟨st', h⟩ | ⟨k, r, st', e, hk, hpre, hr⟩
    · exact absurd h (hn st')
    · obtain rfl : r = w := List.eq_of_mem_replicate (List.mem_of_getElem? hk)
      rw [List.take_replicate] at hpre
      exact Or.inr ⟨_, st', e, hpre, hr⟩

theorem resumed_iff (hword : M.word = rs.word) {rest : List Redirect}
    (hreal : ∀ r ∈ rest, r.oldfd ≠ r.newfd) {st : KState φ} {calls : List Call} {c : Cfg φ}
    (hc : Ready x rs (M.addr 13 + 1).toNat st calls c) :
    EndsWith (child M K) Cfg.proc c (plan K dup2Call x rest st calls) ↔
      match reals (rs.list.drop (M.addr 13 + 1).toNat) with
      | [] => rest = []
      | w :: _ => ∃ p st' e, rest.take (p + 1) = List.replicate (p + 1) w ∧
          (List.replicate p w).foldlM (redirect K) st = .ok st' ∧ redirect K st' w = .error e := by
  cases hw : reals (rs.list.drop (M.addr 13 + 1).toNat) with
  | nil =>
    rw [(attempt_none hword hw hc).iff_eq]
    exact plan_eq_exec_iff hreal
  | cons w ws =>
    constructor
    · intro h
      rcases fold_repeat_cases K w st with hok | ⟨p, st', e, hpre, he⟩
      · exact absurd h (resumed_diverges hword hw hc hok _)
      · rw [(resumed_ends hword hw hc hpre he).iff_eq,
          plan_eq_repeat_iff hreal hpre he] at h
        exact ⟨p, st', e, h, hpre, he⟩
    · intro h
      obtain ⟨p, st', e, htake, hpre, he⟩ := h
      rw [(resumed_ends hword hw hc hpre he).iff_eq,
        plan_eq_repeat_iff hreal hpre he]
      exact htake

theorem endsWith_plan_iff (hword : M.word = rs.word) {st : KState φ} {c : Cfg φ}
    (hc : Ready x rs 0 st [] c) :
    EndsWith (child M K) Cfg.proc c (plan K dup2Call x rs.list st []) ↔
      ClobberHarmless K st rs.list (M.addr 13 + 1).toNat := by
  rw [← plan_reals]
  unfold ClobberHarmless
  have hdrop : rs.list.drop 0 = rs.list := List.drop_zero
  cases hreals : reals rs.list with
  | nil => simpa [plan] using attempt_none hword (hdrop.symm ▸ hreals) hc
  | cons r rest =>
    have hreal : ∀ s ∈ r :: rest, s.oldfd ≠ s.newfd :=
      fun s hs => real_of_mem_reals (hreals ▸ hs)
    rw [plan_real rest (hreal r List.mem_cons_self)]
    cases hst : redirect K st r with
    | error e =>
      have hend := attempt_error hword (hdrop.symm ▸ hreals) hst hc
      simp only [hst]
      exact iff_of_true hend trivial
    | ok st₁ =>
      obtain ⟨d, hcd, hd⟩ := attempt_ok (M := M) hword (hdrop.symm ▸ hreals) hst hc
      simp only [hst]
      rw [endsWith_iff_of_reaches hcd]
      exact resumed_iff hword (fun s hs => hreal s (List.mem_cons_of_mem _ hs)) hd

/-- For a list that ends before the resumed index the condition is plain: at
most one real pair, or a first real pair that fails. -/
theorem clobberHarmless_iff_of_length_le {st : KState φ} {list : List Redirect} {resume : ℕ}
    (h : list.length ≤ resume) :
    ClobberHarmless K st list resume ↔
      (reals list).length ≤ 1 ∨
        ∃ r e, (reals list).head? = some r ∧ redirect K st r = .error e := by
  have hdrop : reals (list.drop resume) = [] := by
    rw [List.drop_of_length_le h]
    rfl
  unfold ClobberHarmless
  rw [hdrop]
  cases reals list with
  | nil => simp
  | cons r rest =>
    cases hr : redirect K st r with
    | error e => simp [hr]
    | ok st₁ => simp [hr]

/-- The child of `vfork_exec_redirected` meets its contract on x86_64 exactly
when the clobbered index does no harm; elsewhere it skips redirects, repeats
one of them or never ends. -/
theorem redirected_child_iff (K : Kernel φ) (addr : ℕ → BitVec 64) (rflags : Flags → BitVec 64)
    (regs : Regs) (fl : Flags) (x : ExecArgs) (rs : RedirectSlice) (st : KState φ)
    (hopen : Open st rs.list) :
    (∃ p, EndsWith (child ⟨addr, rflags, rs.word⟩ K) Cfg.proc (start regs fl vforkFlags x rs st) p ∧
        Follows K dup2Call x st rs.list p) ↔
      ClobberHarmless K st rs.list (addr 13 + 1).toNat := by
  obtain ⟨c, hreach, hc⟩ := ready_start (M := ⟨addr, rflags, rs.word⟩) (K := K) x rs regs fl
    vforkFlags st
  rw [← endsWith_plan_iff (M := ⟨addr, rflags, rs.word⟩) (K := K) rfl hc]
  simp only [follows_iff hopen, exists_eq_right]
  exact endsWith_iff_of_reaches hreach

def placed (word : BitVec 64 → BitVec 32) : Machine where
  addr := fun i => 0x401000 + BitVec.ofNat 64 i
  rflags := fun _ => 0x246
  word := word

theorem redirected_child_oneReal :
    Open twoOpen oneReal.list ∧
      ∃ p, EndsWith (child (placed oneReal.word) plainKernel) Cfg.proc
          (start (fun _ => 0) ⟨false, false, false⟩ vforkFlags ⟨1, 2, 3⟩ oneReal twoOpen) p ∧
        Follows plainKernel dup2Call ⟨1, 2, 3⟩ twoOpen oneReal.list p := by
  refine ⟨open_oneReal, (redirected_child_iff plainKernel _ _ _ _ _ oneReal _ open_oneReal).mpr ?_⟩
  rw [clobberHarmless_iff_of_length_le (by decide)]
  exact Or.inl (by decide)

/-- Two redirects, `3 → 0` and `4 → 1`: the second is lost. -/
theorem redirected_child_twoReal :
    Open twoOpen twoReal.list ∧
      ¬ ∃ p, EndsWith (child (placed twoReal.word) plainKernel) Cfg.proc
          (start (fun _ => 0) ⟨false, false, false⟩ vforkFlags ⟨1, 2, 3⟩ twoReal twoOpen) p ∧
        Follows plainKernel dup2Call ⟨1, 2, 3⟩ twoOpen twoReal.list p := by
  refine ⟨open_twoReal, ?_⟩
  intro h
  obtain ⟨p, hp, hfollows⟩ := h
  let c := run (child (placed twoReal.word) plainKernel) 40
    (start (fun _ => 0) ⟨false, false, false⟩ vforkFlags ⟨1, 2, 3⟩ twoReal twoOpen)
  have hstatus : c.proc.status = .replaced := by decide +kernel
  have hcalls : c.proc.calls = [.dup2 3 0, .execve 1 2 3] := by decide +kernel
  have hc : EndsWith (child (placed twoReal.word) plainKernel) Cfg.proc
      (start (fun _ => 0) ⟨false, false, false⟩ vforkFlags ⟨1, 2, 3⟩ twoReal twoOpen) c.proc :=
    ⟨c, ⟨reaches_run 40 _, next_halted (by simp [hstatus])⟩, rfl⟩
  obtain rfl := hp.unique hc
  obtain ⟨st', hfold⟩ : ∃ st', twoReal.list.foldlM (redirect plainKernel) twoOpen = .ok st' :=
    ⟨_, rfl⟩
  have hall := ((hfollows.applied st' hfold).2.1 rfl).1
  rw [hcalls] at hall
  exact absurd hall (by decide)

end RustyLibc.X86
