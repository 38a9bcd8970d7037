import RustyLibc.SharedCell
import RustyLibc.SyscallReturn
import RustyLibc.TimeMillis
import RustyLibc.VdsoEntry
import Mathlib.Tactic.NormNum

/-!
# Reading a clock from many threads (`vdso.rs`, `time.rs`)

`clock_gettime_fn` caches the entry of the vDSO in a relaxed atomic that every
thread shares, and `clock_gettime` calls the entry it gets or else the system
call. The buffer `ts` is `none` while nothing has written it, and `assume_init` on
it is a panic here. `resolve` touches no shared memory, so a thread that resolves
asks for the result and works on it for as long as it takes.

`Serves clock finds` is what is asked of the environment: an entry that `resolve`
has found and that returns zero has written what the clock shows at that moment,
and so does the system call; a result of `resolve` is one that `finds` allows.
With `Resolves` these are the results of the code of `resolve`, one kernel for
each call of it.
-/

namespace RustyLibc.Vdso
open Linux SharedCell
open ByteOrder (Endian)
open MemoryReads (Memory)
open Time (Timespec)

inductive ClockRequest where
  | resolve
  | entry (f : Ptr) (clockid : BitVec 32)
  | syscall (clockid : BitVec 32)
  deriving DecidableEq, Repr

abbrev ClockReply : ClockRequest → Type
  | .resolve => Option Ptr
  | .entry _ _ => BitVec 32 × Option Timespec
  | .syscall _ => BitVec 64 × Option Timespec

abbrev Cached (α : Type) := Prog Ptr ClockReply α

def failed : Ptr := 1

def clockGettimeFn : Cached (Option Ptr) :=
  .load fun cached =>
    if cached = failed then pure none
    else if cached ≠ 0 then pure (some cached)
    else .ask .resolve fun resolved => .store (resolved.getD failed) (pure resolved)

def assumeInit : Option Timespec → Outcome Errno Timespec
  | some ts => .ok ts
  | none => .panic

/-- The part of `clock_gettime` after the vDSO. -/
def clockSyscall (clockid : BitVec 32) : Cached (Outcome Errno Timespec) :=
  .ask (.syscall clockid) fun (ret, ts) =>
    match fromRet ret with
    | .error e => pure (.err e)
    | .ok _ => pure (assumeInit ts)

def clockGettime (clockid : BitVec 32) : Cached (Outcome Errno Timespec) := do
  match ← clockGettimeFn with
  | some f => .ask (.entry f clockid) fun (ret, ts) =>
      if ret = 0 then pure (assumeInit ts) else clockSyscall clockid
  | none => clockSyscall clockid

variable {Θ : Type}

def Found (h : List (Asked Θ ClockReply)) (f : Ptr) : Prop :=
  ∃ t time, (⟨t, .resolve, some f, time⟩ : Asked Θ ClockReply) ∈ h

abbrev Clock := ℕ → BitVec 32 → Except SysErr Timespec

def Serves (clock : Clock) (finds : Option Ptr → Prop) (h : List (Asked Θ ClockReply)) :
    Asked Θ ClockReply → Prop
  | ⟨_, .resolve, found, _⟩ => finds found
  | ⟨_, .entry f clockid, (ret, ts), time⟩ =>
      Found h f → ret = 0 → ∃ v, ts = some v ∧ clock time clockid = .ok v
  | ⟨_, .syscall clockid, (ret, ts), time⟩ =>
      match clock time clockid with
      | .ok v => ret = 0 ∧ ts = some v
      | .error e => ret = e.raw

/-- What a thread works on by itself. -/
def Resolving : ClockRequest → Prop
  | .resolve => True
  | _ => False

def shown : Except SysErr Timespec → Outcome Errno Timespec
  | .ok v => .ok v
  | .error e => .err (SysErr.errno e)

theorem Found.append {h : List (Asked Θ ClockReply)} {f : Ptr} (hf : Found h f)
    (es : List (Asked Θ ClockReply)) : Found (h ++ es) f := by
  obtain ⟨t, time, hmem⟩ := hf
  exact ⟨t, time, List.mem_append_left es hmem⟩

theorem Found.grows {t : Θ} {h h' : List (Asked Θ ClockReply)} {f : Ptr} (hf : Found h f)
    (hg : Grows t h h') : Found h' f := by
  obtain ⟨es, rfl, -⟩ := hg
  exact hf.append es

def NotResolving (t : Θ) (h : List (Asked Θ ClockReply)) : Prop :=
  ∀ e ∈ h, e.thread = t → e.request ≠ .resolve

/-- The cache goes from zero to the sentinel or to an entry that was found; an
entry is called once it was found. Unless zero may be found, a thread resolves
once. -/
def clockTerms (clock : Clock) (finds : Option Ptr → Prop) : Terms Θ Ptr ClockReply where
  init := 0
  stored h v := v = failed ∨ Found h v ∧ finds (some v)
  stored_mono _ es _ hv := hv.imp_right fun ⟨hf, hv⟩ => ⟨hf.append es, hv⟩
  allowed := Serves clock finds
  pre t h
    | .resolve => ¬ finds (some 0) → NotResolving t h
    | .entry f _ => Found h f ∧ finds (some f)
    | .syscall _ => True

def Between (t : Θ) (past : Bool) (h : List (Asked Θ ClockReply)) : Prop :=
  past = false → NotResolving t h

def ReadsClock (clock : Clock) (t : Θ) (clockid : BitVec 32) (since : ℕ)
    (h : List (Asked Θ ClockReply)) (result : Outcome Errno Timespec) : Prop :=
  ∃ e ∈ h, e.thread = t ∧ since ≤ e.time ∧ result = shown (clock e.time clockid)

theorem NotResolving.grows {t : Θ} {h h' : List (Asked Θ ClockReply)} (hn : NotResolving t h)
    (hg : Grows t h h') : NotResolving t h' :=
  fun e he hown => hn e (hg.mem_own he hown) hown

theorem Between.grows {t : Θ} {past : Bool} {h h' : List (Asked Θ ClockReply)}
    (hb : Between t past h) (hg : Grows t h h') : Between t past h' :=
  fun hpast => (hb hpast).grows hg

theorem Between.asked {t : Θ} {past : Bool} {h : List (Asked Θ ClockReply)}
    (hb : Between t past h) {r : ClockRequest} (hr : r ≠ .resolve) (reply : ClockReply r)
    (time : ℕ) : Between t past (h ++ [⟨t, r, reply, time⟩]) := by
  intro hpast e he hown
  rcases List.mem_append.mp he with he | he
  · exact hb hpast e he hown
  · obtain rfl := List.mem_singleton.mp he
    exact hr

theorem Between.past (t : Θ) (h : List (Asked Θ ClockReply)) : Between t true h :=
  fun hpast => Bool.noConfusion hpast

variable {clock : Clock} {finds : Option Ptr → Prop} {t : Θ} {since : ℕ} {past : Bool}
  {h : List (Asked Θ ClockReply)}

abbrev Entered (finds : Option Ptr → Prop) (t : Θ) (past : Bool) (h : List (Asked Θ ClockReply))
    (found : Option Ptr) : Prop :=
  Between t past h ∧ ∀ f, found = some f → Found h f ∧ finds (some f)

theorem resolve_safe (hn : ¬ finds (some 0) → NotResolving t h) :
    Safe (clockTerms clock finds) t since (Entered finds t)
      (.ask .resolve fun resolved => .store (resolved.getD failed) (pure resolved)) past h := by
  intro h₁ hg₁
  refine ⟨fun hzero => (hn hzero).grows hg₁, ?_⟩
  intro found time _ hallowed h₂ hg₂
  have hfound : ∀ f, found = some f →
      Found (h₁ ++ [⟨t, .resolve, found, time⟩]) f ∧ finds (some f) := by
    rintro f rfl
    exact ⟨⟨t, time, List.mem_append_right _ List.mem_cons_self⟩, hallowed⟩
  constructor
  · cases found with
    | none => exact .inl rfl
    | some f => exact .inr ⟨(hfound f rfl).1.grows hg₂, (hfound f rfl).2⟩
  · intro h₃ hg₃
    exact ⟨.past t h₃, fun f hf => ⟨(hfound f hf).1.grows (hg₂.trans hg₃), (hfound f hf).2⟩⟩

theorem clockGettimeFn_safe (hb : Between t past h) :
    Safe (clockTerms clock finds) t since (Entered finds t) clockGettimeFn past h := by
  intro h₁ hg₁
  constructor
  · -- The cache is still empty for this thread, so it has never resolved.
    exact fun hpast => resolve_safe fun _ => (hb hpast).grows hg₁
  · intro v hv
    by_cases hv₁ : v = failed
    · simp only [if_pos hv₁]
      exact fun h₂ _ => ⟨.past t h₂, nofun⟩
    obtain ⟨hf, hfinds⟩ := hv.resolve_left hv₁
    by_cases hv₀ : v = 0
    · subst hv₀
      exact resolve_safe fun hzero => absurd hfinds hzero
    · simp only [if_neg hv₁, if_pos (show v ≠ 0 from hv₀)]
      intro h₂ hg₂
      refine ⟨.past t h₂, fun f heq => ?_⟩
      obtain rfl := Option.some.inj heq
      exact ⟨hf.grows hg₂, hfinds⟩

theorem clockSyscall_safe (hb : Between t past h) (clockid : BitVec 32) :
    Safe (clockTerms clock finds) t since
      (fun past h r => Between t past h ∧ ReadsClock clock t clockid since h r)
      (clockSyscall clockid) past h := by
  intro h₁ hg₁
  refine ⟨trivial, ?_⟩
  rintro ⟨ret, ts⟩ time htime hallowed
  have hbetween := (hb.grows hg₁).asked (r := .syscall clockid) (by simp) (ret, ts) time
  have hreads : ∀ h₂, Grows t (h₁ ++ [⟨t, .syscall clockid, (ret, ts), time⟩]) h₂ →
      ReadsClock clock t clockid since h₂ (shown (clock time clockid)) := fun h₂ hg₂ =>
    ⟨_, hg₂.mem (List.mem_append_right _ List.mem_cons_self), rfl, htime, rfl⟩
  simp only [clockTerms, Serves] at hallowed
  cases hc : clock time clockid with
  | ok v =>
    rw [hc] at hallowed
    obtain ⟨rfl, rfl⟩ := hallowed
    rw [hc] at hreads
    exact fun h₂ hg₂ => ⟨hbetween.grows hg₂, hreads h₂ hg₂⟩
  | error e =>
    rw [hc] at hallowed
    subst hallowed
    rw [hc] at hreads
    simp only [fromRet_raw]
    exact fun h₂ hg₂ => ⟨hbetween.grows hg₂, hreads h₂ hg₂⟩

theorem clockGettime_safe (hb : Between t past h) (clockid : BitVec 32) :
    Safe (clockTerms clock finds) t since
      (fun past h r => Between t past h ∧ ReadsClock clock t clockid since h r)
      (clockGettime clockid) past h := by
  refine (clockGettimeFn_safe hb).bind ?_
  rintro found past₁ h₁ ⟨hb₁, hfound⟩
  cases found with
  | none => exact clockSyscall_safe hb₁ clockid
  | some f =>
    intro h₂ hg₂
    have hf := (hfound f rfl).1.grows hg₂
    refine ⟨⟨hf, (hfound f rfl).2⟩, ?_⟩
    rintro ⟨ret, ts⟩ time htime hallowed
    have hbetween := (hb₁.grows hg₂).asked (r := .entry f clockid) (by simp) (ret, ts) time
    by_cases hret : ret = 0
    · obtain ⟨v, rfl, hv⟩ := hallowed hf hret
      simp only [if_pos hret]
      intro h₃ hg₃
      exact ⟨hbetween.grows hg₃, _, hg₃.mem (List.mem_append_right _ List.mem_cons_self), rfl, htime,
        by rw [hv]; rfl⟩
    · simp only [if_neg hret]
      exact clockSyscall_safe hbetween clockid

def clockContract (clock : Clock) (finds : Option Ptr → Prop) :
    Contract (clockTerms (Θ := Θ) clock finds) clockGettime where
  between := Between
  between_nil _ := by simp [Between, NotResolving]
  between_grows _ _ _ _ hg hb := hb.grows hg
  post t clockid since h r := ReadsClock clock t clockid since h r
  safe _ clockid _ _ _ hb := clockGettime_safe hb clockid

theorem serves_answers {found : Option Ptr} (hfound : finds found) (clock : Clock)
    (h : List (Asked Θ ClockReply)) (t : Θ) (r : ClockRequest) (time : ℕ) :
    ∃ reply, Serves clock finds h ⟨t, r, reply, time⟩ := by
  cases r with
  | resolve => exact ⟨found, hfound⟩
  | entry f clockid => exact ⟨(-1, none), by simp [Serves]⟩
  | syscall clockid =>
    cases hc : clock time clockid with
    | ok v => exact ⟨(0, some v), by simp [Serves, hc]⟩
    | error e => exact ⟨(e.raw, none), by simp [Serves, hc]⟩

def tickingClock : Clock := fun time _ => .ok ⟨BitVec.ofNat 64 time, 0⟩

def racingSteps : List (Bool × Effort) :=
  [(true, .step), (true, .step), (true, .work), (true, .step), (true, .step), (false, .step),
    (false, .step), (false, .step), (false, .step), (true, .step), (false, .step), (true, .step),
    (false, .step)]

/-- The second thread still reads the empty cache after the first has filled it,
fails to resolve, and its store comes first in the modification order. -/
theorem exists_racing_calls {finds : Option Ptr → Prop} {f : Ptr} (hsome : finds (some f))
    (hnone : finds none) :
    ∃ s : State Bool Ptr ClockReply (BitVec 32) (Outcome Errno Timespec),
      Path clockGettime (Serves tickingClock finds) Resolving racingSteps (start 0) s ∧
      s.calls = [⟨true, 1, 0, 11, .ok ⟨9, 0⟩⟩, ⟨false, 1, 5, 12, .ok ⟨10, 0⟩⟩] := by
  refine ⟨_, .cons (.start 1 rfl) <| .cons (.load ⟨0, 0⟩ rfl (by simp [start]) le_rfl) <|
    .cons (.work rfl trivial) <|
    .cons (.ask (some f) rfl (by exact hsome)) <|
    .cons (.store 1 rfl (by simp [start]) (by simp [start])) <|
    .cons (.start 1 rfl) <| .cons (.load ⟨0, 0⟩ rfl (by simp [start]) le_rfl) <|
    .cons (.ask none rfl (by exact hnone)) <|
    .cons (.store (1 / 2) rfl (by simp) (by norm_num [start])) <|
    .cons (.ask (0, some ⟨9, 0⟩) rfl (fun _ _ => ⟨_, rfl, rfl⟩)) <|
    .cons (.ask (0, some ⟨10, 0⟩) rfl ⟨rfl, rfl⟩) <|
    .cons (.ret rfl) <| .cons (.ret rfl) <| .nil _, rfl⟩

variable [DecidableEq Θ] {ts : List (Θ × Effort)} {s : State Θ Ptr ClockReply (BitVec 32)
  (Outcome Errno Timespec)}

theorem clockGettime_linearizable (clock : Clock) (finds : Option Ptr → Prop)
    (hrun : Path clockGettime (Serves clock finds) Resolving ts (start 0) s) :
    ∀ c ∈ s.calls, ∃ time, c.started ≤ time ∧ time < c.ended ∧
      c.result = shown (clock time c.arg) := by
  intro c hc
  have hs : (clockContract clock finds).Holds s := (clockContract clock finds).holds hrun
  obtain ⟨h, -, hbefore, e, he, -, hsince, hresult⟩ := hs.call c hc
  exact ⟨e.time, hsince, hbefore e he, hresult⟩

theorem clockGettime_linearizable_racing :
    ∃ s : State Bool Ptr ClockReply (BitVec 32) (Outcome Errno Timespec), s.calls.length = 2 ∧
      ∀ c ∈ s.calls, ∃ time, c.started ≤ time ∧ time < c.ended ∧
        c.result = shown (tickingClock time c.arg) := by
  let finds : Option Ptr → Prop := fun _ => True
  have hsome : finds (some 4096) := trivial
  have hnone : finds none := trivial
  obtain ⟨s, hrun, hcalls⟩ := exists_racing_calls hsome hnone
  exact ⟨s, by rw [hcalls]; rfl, clockGettime_linearizable tickingClock _ hrun⟩

theorem clockGettime_asks (clock : Clock) (arch : Arch) (e : Endian) (m : Memory 64 UInt8)
    (img : List UInt8)
    (hrun : Path clockGettime (Serves clock (Resolves arch e m img)) Resolving ts (start 0) s) :
    (∀ h x h' f clockid, s.asked = h ++ x :: h' → x.request = .entry f clockid →
      Found h f ∧ f ≠ 0 ∧ f ≠ failed) ∧
    ∀ t, s.asked.countP (fun x => x.thread = t ∧ x.request = .resolve) ≤ 1 := by
  have hs := (clockContract clock (Resolves arch e m img)).holds hrun
  have hne : ∀ f, Resolves arch e m img (some f) → f ≠ 0 ∧ f ≠ failed := by
    intro f hf
    have hlow := hf.sixtyFour_le
    constructor
    · rintro rfl
      exact absurd hlow (by decide)
    · rintro rfl
      exact absurd hlow (by decide)
  constructor
  · intro h x h' f clockid heq hrequest
    have hpre := (hs.asked h x h' heq).1
    rw [hrequest] at hpre
    exact ⟨hpre.1, hne f hpre.2⟩
  · intro t
    apply countP_le_one
    intro h x h' heq hresolve y hy hy'
    obtain ⟨rfl, hrequest⟩ := of_decide_eq_true hresolve
    obtain ⟨hown, hy'⟩ := of_decide_eq_true hy'
    have hpre := (hs.asked h x h' heq).1
    rw [hrequest] at hpre
    exact hpre (fun hzero => (hne 0 hzero).1 rfl) y hy hown hy'

theorem clockGettime_asks_racing :
    ∃ s : State Bool Ptr ClockReply (BitVec 32) (Outcome Errno Timespec), s.calls.length = 2 ∧
      (∀ h x h' f clockid, s.asked = h ++ x :: h' → x.request = .entry f clockid →
        Found h f ∧ f ≠ 0 ∧ f ≠ failed) ∧
      ∀ t, s.asked.countP (fun x => x.thread = t ∧ x.request = .resolve) ≤ 1 := by
  obtain ⟨s, hrun, hcalls⟩ := exists_racing_calls resolves_innerImage (resolves_none _ _ _ _)
  exact ⟨s, by rw [hcalls]; rfl, clockGettime_asks tickingClock _ _ _ _ hrun⟩

theorem clockGettimeFn_within : clockGettimeFn.Within 4 := by
  intro cached
  by_cases h₁ : cached = failed
  · simp only [if_pos h₁]
    trivial
  · by_cases h₀ : cached ≠ 0
    · simp only [if_neg h₁, if_pos h₀]
      trivial
    · simp only [if_neg h₁, if_neg h₀]
      exact fun _ => trivial

theorem clockSyscall_within (clockid : BitVec 32) : (clockSyscall clockid).Within 2 := by
  rintro ⟨ret, ts⟩
  cases hret : fromRet ret with
  | error e =>
    simp only [hret]
    trivial
  | ok n =>
    simp only [hret]
    trivial

theorem clockGettime_within (clockid : BitVec 32) : (clockGettime clockid).Within 6 := by
  refine clockGettimeFn_within.bind (n := 2) ?_
  intro found
  cases found with
  | none => exact (clockSyscall_within clockid).succ
  | some f =>
    rintro ⟨ret, ts⟩
    by_cases hret : ret = 0
    · simp only [if_pos hret]
      trivial
    · simp only [if_neg hret]
      exact clockSyscall_within clockid

/-- The steps of `resolve` are counted apart: it makes a bounded number of calls that
are not interrupted. -/
theorem clockGettime_waitFree (clock : Clock) (arch : Arch) (e : Endian) (m : Memory 64 UInt8)
    (img : List UInt8)
    (hrun : Path clockGettime (Serves clock (Resolves arch e m img)) Resolving ts (start 0) s)
    {t : Θ} {clockid : BitVec 32} {since : ℕ} {rest : Cached (Outcome Errno Timespec)}
    (hphase : s.phase t = .busy clockid since rest) :
    (∃ s', Step clockGettime (Serves clock (Resolves arch e m img)) Resolving t .step s s') ∧
    (∀ ts' s', Path clockGettime (Serves clock (Resolves arch e m img)) Resolving ts' s s' →
      6 ≤ ts'.count (t, .step) →
      ∃ c ∈ s'.calls, c.thread = t ∧ c.arg = clockid ∧ c.started = since) ∧
    ∀ (σ : Type) (kernel : Fd.Kernel σ) (passes walk : ℕ) (s₀ : σ),
      let w := (resolve arch e kernel m passes walk ⟨s₀, []⟩).2
      w.trace.length ≤ Fd.interruptions w.trace + 4099 ∧
        (img.length ≤ walk → Mapped arch e m img (Fd.consumed w.trace) →
          Fd.interruptions w.trace + 4099 ≤ passes →
          ∃ found, (resolve arch e kernel m passes walk ⟨s₀, []⟩).1 = .ok found) := by
  have hs := (clockContract clock (Resolves arch e m img)).holds hrun
  have hrest : rest.Within 6 := hrun.within clockGettime_within (by simp [start]) hphase
  exact ⟨hs.exists_step (serves_answers (resolves_none arch e m img) clock) hphase,
    fun ts' s' hrun' hcount => hrun'.returns hphase hrest hcount,
    fun σ kernel passes walk s₀ => ⟨resolve_calls arch e kernel m passes walk s₀,
      fun hwalk hmapped hpasses => resolve_returns arch e kernel m (Prod.eta _).symm hwalk hmapped
        hpasses⟩⟩

abbrev innerServes : List (Asked Bool ClockReply) → Asked Bool ClockReply → Prop :=
  Serves tickingClock (Resolves .x86_64 .little (loaded 0x7000 innerImage) innerImage)

theorem clockGettime_waitFree_started :
    ∃ s : State Bool Ptr ClockReply (BitVec 32) (Outcome Errno Timespec),
      (∃ s', Step clockGettime innerServes Resolving true .step s s') ∧
      ∀ ts' s', Path clockGettime innerServes Resolving ts' s s' → 6 ≤ ts'.count (true, .step) →
        ∃ c ∈ s'.calls, c.thread = true ∧ c.arg = 1 ∧ c.started = 0 := by
  obtain ⟨s, hstart, hbusy⟩ : ∃ s, Step clockGettime innerServes Resolving true .step (start 0) s ∧
      s.phase true = .busy 1 0 (clockGettime 1) := ⟨_, .start 1 rfl, rfl⟩
  obtain ⟨hnext, hreturns, -⟩ := clockGettime_waitFree tickingClock .x86_64 .little
    (loaded 0x7000 innerImage) innerImage (.cons hstart (.nil _)) hbusy
  exact ⟨s, hnext, hreturns⟩

end RustyLibc.Vdso
