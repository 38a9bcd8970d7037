import RustyLibc.WaitStatus
import RustyLibc.SyscallReturn

/-!
# A parent and its children (`wait.rs`)

The children of a process, what becomes of them, and `waitpid` and `waitid`, in
any order. The kernel follows wait(2): a dead child stays until it has been
reported, a stop or a continuation is reported once, and which of several
children a call reports is its own choice. A call that blocks has no result and
changes nothing; a signal may end it. `SIGCHLD` is not ignored and has no
`SA_NOCLDWAIT`, so the dead are kept. The options are the documented ones: Linux
also takes `__WALL`, `__WCLONE` and `__WNOTHREAD`, which are refused here. A
`waitid` that does not ask for the dead finds them among its children here, where
Linux may say `ECHILD` if there is nobody else. Traced children are left aside,
and `rusage` is not looked at.
-/

namespace RustyLibc.Wait
open Linux

inductive Death where
  | exited (code : BitVec 8)
  | killed (sig : BitVec 7) (hsig : sig ≠ 0 ∧ sig ≠ 0x7f) (core : Bool)

def Death.change : Death → Change
  | .exited code => .exited code
  | .killed sig hsig core => .killed sig hsig core

/-- `fresh` marks a change that has not been reported yet. -/
inductive Life where
  | running (fresh : Bool)
  | stopped (sig : BitVec 8) (fresh : Bool)
  | dead (how : Death)

structure Child where
  pid : BitVec 32
  pgid : BitVec 32
  uid : BitVec 32
  life : Life

structure Family where
  group : BitVec 32
  children : List Child
  nodup : (children.map Child.pid).Nodup
  pid_pos : ∀ c ∈ children, 0 < c.pid.toInt

namespace Family

def child? (F : Family) (p : BitVec 32) : Option Child := F.children.find? (·.pid == p)

def modify (F : Family) (p : BitVec 32) (f : Child → Child) (hf : ∀ c, (f c).pid = c.pid) :
    Family where
  group := F.group
  children := F.children.map fun c => if c.pid = p then f c else c
  nodup := by
    have hsame : (F.children.map fun c => if c.pid = p then f c else c).map Child.pid =
        F.children.map Child.pid := by
      rw [List.map_map]
      refine List.map_congr_left fun c _ => ?_
      simp only [Function.comp_apply]
      split
      · exact hf c
      · rfl
    rw [hsame]
    exact F.nodup
  pid_pos := by
    intro c hc
    obtain ⟨c₀, hc₀, rfl⟩ := List.mem_map.mp hc
    split
    · rw [hf]
      exact F.pid_pos c₀ hc₀
    · exact F.pid_pos c₀ hc₀

def setLife (F : Family) (p : BitVec 32) (life : Life) : Family :=
  F.modify p (fun c => { c with life := life }) fun _ => rfl

def remove (F : Family) (p : BitVec 32) : Family where
  group := F.group
  children := F.children.filter (·.pid ≠ p)
  nodup := (List.filter_sublist.map _).nodup F.nodup
  pid_pos c hc := F.pid_pos c (List.mem_of_mem_filter hc)

def fork (F : Family) (pid pgid uid : BitVec 32) : Family :=
  if h : 0 < pid.toInt ∧ pid ∉ F.children.map Child.pid then
    { group := F.group
      children := ⟨pid, pgid, uid, .running false⟩ :: F.children
      nodup := List.nodup_cons.mpr ⟨h.2, F.nodup⟩
      pid_pos := List.forall_mem_cons.mpr ⟨h.1, F.pid_pos⟩ }
  else F

theorem mem_children {F : Family} {p : BitVec 32} {c : Child} (h : F.child? p = some c) :
    c ∈ F.children ∧ c.pid = p :=
  ⟨List.mem_of_find?_eq_some h, by simpa using List.find?_some h⟩

theorem child?_of_mem {F : Family} {c : Child} (h : c ∈ F.children) : F.child? c.pid = some c := by
  have hnodup := F.nodup
  unfold child?
  generalize F.children = children at h hnodup ⊢
  induction children with
  | nil => cases h
  | cons a l ih =>
    rw [List.map_cons, List.nodup_cons] at hnodup
    rcases List.mem_cons.mp h with rfl | hl
    · rw [List.find?_cons_of_pos (by simp)]
    · have hne : a.pid ≠ c.pid := fun heq => hnodup.1 (heq ▸ List.mem_map_of_mem hl)
      rw [List.find?_cons_of_neg (by simpa using hne)]
      exact ih hl hnodup.2

theorem child?_modify (F : Family) (p : BitVec 32) (f : Child → Child) (hf : ∀ c, (f c).pid = c.pid)
    (q : BitVec 32) :
    (F.modify p f hf).child? q = if q = p then (F.child? p).map f else F.child? q := by
  unfold child? modify
  dsimp only
  induction F.children with
  | nil => simp
  | cons a l ih =>
    rw [List.map_cons]
    by_cases hap : a.pid = p
    · by_cases hqp : q = p
      · subst hqp
        simp [hap, hf]
      · have hne : ¬ p = q := fun h => hqp h.symm
        simpa [hap, hf, hqp, hne, List.find?_cons] using ih
    · by_cases hqp : q = p
      · subst hqp
        simpa [hap, List.find?_cons] using ih
      · by_cases haq : a.pid = q
        · simp [haq, hqp]
        · simpa [hap, haq, hqp, List.find?_cons] using ih

theorem child?_remove (F : Family) (p q : BitVec 32) :
    (F.remove p).child? q = if q = p then none else F.child? q := by
  unfold child? remove
  dsimp only
  rw [List.find?_filter]
  split
  · rename_i hqp
    subst hqp
    simp
  · rename_i hqp
    congr 1
    funext c
    by_cases hc : c.pid = q
    · simp [hc, hqp]
    · simp [hc]

end Family

def wnohang : BitVec 32 := 1
def wuntraced : BitVec 32 := 2
def wexited : BitVec 32 := 4
def wstopped : BitVec 32 := 2
def wcontinued : BitVec 32 := 8
def wnowait : BitVec 32 := 0x01000000

def has (options flag : BitVec 32) : Bool := options &&& flag != 0

def Life.news (options : BitVec 32) : Life → Option Change
  | .dead how => if has options wexited then some how.change else none
  | .stopped sig true => if has options wuntraced then some (.stopped sig 0) else none
  | .running true => if has options wcontinued then some .continued else none
  | _ => none

def Life.reported : Life → Option Life
  | .dead _ => none
  | .stopped sig _ => some (.stopped sig false)
  | .running _ => some (.running false)

/-- The kernel's choices in one call: which child it prefers to report, and
whether a signal ends the call if it blocks. -/
structure Choice where
  prefer : Child → Bool
  interrupted : Bool

inductive Answer where
  | report (c : Child) (change : Change)
  | nothing
  | blocked
  | fails (reason : SysErr)

def Family.ready (F : Family) (selects : Child → Bool) (options : BitVec 32) :
    List (Child × Change) :=
  (F.children.filter selects).filterMap fun c => (c.life.news options).map (c, ·)

def Family.answer (F : Family) (choice : Choice) (selects : Child → Bool) (options : BitVec 32) :
    Answer :=
  if (F.children.filter selects).isEmpty then .fails .ECHILD
  else
    let ready := F.ready selects options
    match (ready.find? fun r => choice.prefer r.1).or ready.head? with
    | some (c, change) => .report c change
    | none =>
      if has options wnohang then .nothing
      else if choice.interrupted then .fails .EINTR
      else .blocked

def Family.afterReport (F : Family) (c : Child) : Family :=
  match c.life.reported with
  | none => F.remove c.pid
  | some life => F.setLife c.pid life

def selectsPid (F : Family) (pid : BitVec 32) (c : Child) : Bool :=
  if 0 < pid.toInt then c.pid == pid
  else if pid = 0 then c.pgid == F.group
  else if pid = -1 then true
  else c.pgid == -pid

/-- wait4(2): the result register, the status word and the family afterwards, or
nothing while the call blocks. -/
def sysWait4 (F : Family) (choice : Choice) (pid status options : BitVec 32) :
    Option (BitVec 64 × BitVec 32 × Family) :=
  if options &&& ~~~(wnohang ||| wuntraced ||| wcontinued) ≠ 0 then
    some (SysErr.EINVAL.raw, status, F)
  else if pid = BitVec.intMin 32 then some (SysErr.ESRCH.raw, status, F)
  else match F.answer choice (selectsPid F pid) (options ||| wexited) with
    | .report c change => some (c.pid.setWidth 64, encode change, F.afterReport c)
    | .nothing => some (0, status, F)
    | .blocked => none
    | .fails reason => some (reason.raw, status, F)

structure Siginfo where
  siSigno : BitVec 32
  siErrno : BitVec 32
  siCode : BitVec 32
  siPid : BitVec 32
  siUid : BitVec 32
  siStatus : BitVec 32
  deriving DecidableEq, Repr

def Siginfo.default : Siginfo := ⟨0, 0, 0, 0, 0, 0⟩

def sigchld : BitVec 32 := 17
def sigcont : BitVec 32 := 18
def cldExited : BitVec 32 := 1
def cldKilled : BitVec 32 := 2
def cldDumped : BitVec 32 := 3
def cldStopped : BitVec 32 := 5
def cldContinued : BitVec 32 := 6

def Change.info : Change → BitVec 32 × BitVec 32
  | .exited code => (cldExited, code.setWidth 32)
  | .killed sig _ core => (if core then cldDumped else cldKilled, sig.setWidth 32)
  | .stopped sig _ => (cldStopped, sig.setWidth 32)
  | .continued => (cldContinued, sigcont)

def siginfo (c : Child) (change : Change) : Siginfo :=
  ⟨sigchld, 0, change.info.1, c.pid, c.uid, change.info.2⟩

def pAll : BitVec 32 := 0
def pPid : BitVec 32 := 1
def pPgid : BitVec 32 := 2
def pPidfd : BitVec 32 := 3

/-- The children an `idtype` and an `id` of waitid(2) stand for. `pidfd` says
what the descriptors of the process refer to. -/
def selectsId (F : Family) (pidfd : BitVec 32 → Except SysErr (Child → Bool))
    (idtype id : BitVec 32) : Except SysErr (Child → Bool) :=
  if idtype = pAll then .ok fun _ => true
  else if idtype = pPid then
    if id.toInt ≤ 0 then .error .EINVAL else .ok fun c => c.pid == id
  else if idtype = pPgid then
    if id.toInt < 0 then .error .EINVAL
    else .ok fun c => c.pgid == if id = 0 then F.group else id
  else if idtype = pPidfd then
    if id.toInt < 0 then .error .EINVAL else pidfd id
  else .error .EINVAL

def sysWaitid (F : Family) (choice : Choice) (pidfd : BitVec 32 → Except SysErr (Child → Bool))
    (idtype id : BitVec 32) (info : Siginfo) (options : BitVec 32) :
    Option (BitVec 64 × Siginfo × Family) :=
  if options &&& ~~~(wnohang ||| wnowait ||| wexited ||| wstopped ||| wcontinued) ≠ 0 ∨
      options &&& (wexited ||| wstopped ||| wcontinued) = 0 then
    some (SysErr.EINVAL.raw, info, F)
  else match selectsId F pidfd idtype id with
    | .error reason => some (reason.raw, info, F)
    | .ok selects => match F.answer choice selects options with
      | .report c change =>
        some (0, siginfo c change, if has options wnowait then F else F.afterReport c)
      | .nothing => some (0, Siginfo.default, F)
      | .blocked => none
      | .fails reason => some (reason.raw, info, F)

def waitpid (F : Family) (choice : Choice) (pid options : BitVec 32) :
    Option (Except Errno (BitVec 32 × BitVec 32) × Family) :=
  (sysWait4 F choice pid 0 options).map fun (ret, status, F) =>
    ((fromRetI32 ret).map fun child => (child, status), F)

def waitid (F : Family) (choice : Choice) (pidfd : BitVec 32 → Except SysErr (Child → Bool))
    (idtype id options : BitVec 32) : Option (Except Errno Siginfo × Family) :=
  (sysWaitid F choice pidfd idtype id Siginfo.default options).map fun (ret, info, F) =>
    ((fromRet ret).map fun _ => info, F)

inductive Cause where
  | exit (code : BitVec 32)
  | signal (sig : BitVec 32)
  deriving DecidableEq, Repr

def Death.cause : Death → Cause
  | .exited code => .exit (code.setWidth 32)
  | .killed sig _ _ => .signal (sig.setWidth 32)

def causeOf (status : BitVec 32) : Option Cause :=
  if wifexited status then some (.exit (wexitstatus status))
  else if wifsignaled status then some (.signal (wtermsig status))
  else none

def Siginfo.cause (info : Siginfo) : Option Cause :=
  if info.siCode = cldExited then some (.exit info.siStatus)
  else if info.siCode = cldKilled ∨ info.siCode = cldDumped then some (.signal info.siStatus)
  else none

inductive Step where
  | fork (pid pgid uid : BitVec 32)
  | die (pid : BitVec 32) (how : Death)
  | stop (pid : BitVec 32) (sig : BitVec 8)
  | resume (pid : BitVec 32)
  | regroup (pid pgid : BitVec 32)
  | waitpid (choice : Choice) (pid options : BitVec 32)
  | waitid (choice : Choice) (pidfd : BitVec 32 → Except SysErr (Child → Bool))
      (idtype id options : BitVec 32)

def Life.isRunning : Life → Bool
  | .running _ => true
  | _ => false

def Life.isStopped : Life → Bool
  | .stopped _ _ => true
  | _ => false

def Life.isDead : Life → Bool
  | .dead _ => true
  | _ => false

def Family.alter (F : Family) (p : BitVec 32) (befalls : Life → Bool) (f : Child → Child)
    (hf : ∀ c, (f c).pid = c.pid) : Family :=
  match F.child? p with
  | some c => if befalls c.life then F.modify p f hf else F
  | none => F

def Family.become (F : Family) (p : BitVec 32) (befalls : Life → Bool) (life : Life) : Family :=
  F.alter p befalls (fun c => { c with life := life }) fun _ => rfl

def deaths (F : Family) : Step → List (BitVec 32 × Cause)
  | .die p how => match F.child? p with
    | some c => if !c.life.isDead then [(p, how.cause)] else []
    | none => []
  | _ => []

/-- The deaths the caller is told of for good: `WNOWAIT` only asks. -/
def toldDeaths (F : Family) : Step → List (BitVec 32 × Cause)
  | .waitpid choice pid options => match Wait.waitpid F choice pid options with
    | some (.ok (child, status), _) => ((causeOf status).map (child, ·)).toList.filter (·.1 ≠ 0)
    | _ => []
  | .waitid choice pidfd idtype id options =>
    match Wait.waitid F choice pidfd idtype id options with
    | some (.ok info, _) =>
      if has options wnowait then [] else (info.cause.map (info.siPid, ·)).toList
    | _ => []
  | _ => []

def step (F : Family) : Step → Family
  | .fork pid pgid uid => F.fork pid pgid uid
  | .die p how => F.become p (!·.isDead) (.dead how)
  | .stop p sig => F.become p Life.isRunning (.stopped sig true)
  | .resume p => F.become p Life.isStopped (.running true)
  | .regroup p pgid => F.alter p (!·.isDead) (fun c => { c with pgid := pgid }) fun _ => rfl
  | .waitpid choice pid options => ((Wait.waitpid F choice pid options).map Prod.snd).getD F
  | .waitid choice pidfd idtype id options =>
    ((Wait.waitid F choice pidfd idtype id options).map Prod.snd).getD F

structure History where
  family : Family
  died : List (BitVec 32 × Cause)
  told : List (BitVec 32 × Cause)

def history (F : Family) : List Step → History
  | [] => ⟨F, [], []⟩
  | s :: rest =>
    let later := history (step F s) rest
    ⟨later.family, deaths F s ++ later.died, toldDeaths F s ++ later.told⟩

def Family.unreported (F : Family) (p : BitVec 32) : List (BitVec 32 × Cause) :=
  match F.child? p with
  | some ⟨_, _, _, .dead how⟩ => [(p, how.cause)]
  | _ => []

theorem causeOf_death (how : Death) : causeOf (encode how.change) = some how.cause := by
  cases how with
  | exited code =>
    have hkind : wifexited (encode (.exited code)) = true := test_kind (.exited code)
    have hread : wexitstatus (encode (.exited code)) = code.setWidth 32 :=
      read_encode (.exited code)
    rw [Death.change, causeOf, if_pos hkind, hread, Death.cause]
  | killed sig hsig core =>
    have hkind : wifsignaled (encode (.killed sig hsig core)) = true :=
      test_kind (.killed sig hsig core)
    have hnot : ¬ wifexited (encode (.killed sig hsig core)) = true := by
      intro h
      obtain ⟨event, code, low, hword⟩ := exists_word (encode (.killed sig hsig core))
      rw [hword] at h hkind
      have hkinds := (low_of_test (k := .exited) h).unique (low_of_test (k := .signaled) hkind)
      cases hkinds
    have hread : wtermsig (encode (.killed sig hsig core)) = sig.setWidth 32 :=
      read_encode (.killed sig hsig core)
    rw [Death.change, causeOf, if_neg hnot, if_pos hkind, hread, Death.cause]

theorem cause_siginfo_death (c : Child) (how : Death) :
    (siginfo c how.change).cause = some how.cause := by
  cases how with
  | exited code => rfl
  | killed sig hsig core => cases core <;> rfl

theorem causeOf_stopped (sig : BitVec 8) : causeOf (encode (.stopped sig 0)) = none := by
  have hlow : (0x7f : BitVec 8).toNat % 128 = 127 := rfl
  have hexited : wifexited (encode (.stopped sig 0)) = false := by
    rw [encode, wifexited_word, hlow]
    rfl
  have hsignaled : wifsignaled (encode (.stopped sig 0)) = false := by
    rw [encode, wifsignaled_word, hlow]
    rfl
  rw [causeOf, hexited, hsignaled]
  rfl

theorem causeOf_continued : causeOf (encode .continued) = none := by decide

theorem unreported_of_child?_eq {F G : Family} {p : BitVec 32} (h : F.child? p = G.child? p) :
    F.unreported p = G.unreported p := by
  rw [Family.unreported, Family.unreported, h]

theorem unreported_dead {F : Family} {c : Child} (hc : c ∈ F.children) {how : Death}
    (hlife : c.life = .dead how) : F.unreported c.pid = [(c.pid, how.cause)] := by
  obtain ⟨pid, pgid, uid, life⟩ := c
  subst hlife
  rw [Family.unreported, Family.child?_of_mem hc]

theorem unreported_living {F : Family} {p : BitVec 32} {c : Child} (hc : F.child? p = some c)
    (hlife : c.life.isDead = false) : F.unreported p = [] := by
  obtain ⟨pid, pgid, uid, life⟩ := c
  rw [Family.unreported, hc]
  cases life with
  | running fresh => rfl
  | stopped sig fresh => rfl
  | dead how => cases hlife

theorem unreported_none {F : Family} {p : BitVec 32} (h : F.child? p = none) :
    F.unreported p = [] := by
  rw [Family.unreported, h]

theorem child?_fork_ne (F : Family) {pid pgid uid q : BitVec 32} (hq : q ≠ pid) :
    (F.fork pid pgid uid).child? q = F.child? q := by
  unfold Family.fork
  split
  · have hne : ¬ (pid == q) = true := by simpa using hq.symm
    exact List.find?_cons_of_neg hne
  · rfl

theorem unreported_fork (F : Family) (pid pgid uid q : BitVec 32) :
    (F.fork pid pgid uid).unreported q = F.unreported q := by
  by_cases hq : q = pid
  · subst hq
    unfold Family.fork
    split
    · rename_i h
      have hnone : F.child? q = none := by
        refine List.find?_eq_none.mpr fun c hc heq => h.2 ?_
        rw [beq_iff_eq] at heq
        exact heq ▸ List.mem_map_of_mem hc
      rw [unreported_none hnone]
      refine unreported_living (c := ⟨q, pgid, uid, .running false⟩) ?_ rfl
      exact List.find?_cons_of_pos (by simp)
    · rfl
  · exact unreported_of_child?_eq (child?_fork_ne F hq)

theorem unreported_alter {befalls : Life → Bool} {f : Child → Child}
    {hf : ∀ c, (f c).pid = c.pid} (hliving : ∀ c : Child, befalls c.life = true →
      c.life.isDead = false ∧ (f c).life.isDead = false) (F : Family) (p q : BitVec 32) :
    (F.alter p befalls f hf).unreported q = F.unreported q := by
  unfold Family.alter
  cases hchild : F.child? p with
  | none => rfl
  | some c =>
    dsimp only
    split
    · rename_i hbefalls
      have halter := Family.child?_modify F p f hf
      by_cases hq : q = p
      · subst hq
        have hnew : (F.modify q f hf).child? q = some (f c) := by
          rw [halter, if_pos rfl, hchild]
          rfl
        rw [unreported_living hchild (hliving c hbefalls).1,
          unreported_living hnew (hliving c hbefalls).2]
      · apply unreported_of_child?_eq
        rw [halter, if_neg hq]
    · rfl

theorem setLife_living {F : Family} {p : BitVec 32} {c : Child} (hc : F.child? p = some c)
    (hlife : c.life.isDead = false) {life : Life} (hnew : life.isDead = false) (q : BitVec 32) :
    (F.setLife p life).unreported q = F.unreported q := by
  have hmodify := Family.child?_modify F p (fun c => { c with life := life }) (fun _ => rfl) q
  by_cases hq : q = p
  · subst hq
    rw [if_pos rfl, hc, Option.map_some] at hmodify
    rw [unreported_living hc hlife, Family.setLife, unreported_living hmodify hnew]
  · rw [if_neg hq] at hmodify
    exact unreported_of_child?_eq hmodify

theorem unreported_die (F : Family) (p : BitVec 32) (how : Death) (q : BitVec 32) :
    F.unreported q ++ (deaths F (.die p how)).filter (·.1 = q) =
      (step F (.die p how)).unreported q := by
  simp only [deaths, step, Family.become, Family.alter]
  cases hchild : F.child? p with
  | none => exact List.append_nil _
  | some c =>
    dsimp only
    by_cases hdead : c.life.isDead = true
    · simp only [hdead, Bool.not_true, Bool.false_eq_true, if_false]
      exact List.append_nil _
    · rw [Bool.not_eq_true] at hdead
      simp only [hdead, Bool.not_false, if_true]
      have hnew := Family.child?_modify F p (fun c => { c with life := .dead how }) (fun _ => rfl) q
      by_cases hq : q = p
      · subst hq
        rw [if_pos rfl, hchild] at hnew
        rw [unreported_living hchild hdead, Family.unreported, hnew]
        simp
      · rw [if_neg hq] at hnew
        rw [unreported_of_child?_eq hnew]
        simp [Ne.symm hq]

theorem answer_report {F : Family} {choice : Choice} {selects : Child → Bool} {options : BitVec 32}
    {c : Child} {change : Change} (h : F.answer choice selects options = .report c change) :
    c ∈ F.children ∧ selects c = true ∧ c.life.news options = some change := by
  have hready : (c, change) ∈ F.ready selects options := by
    have hsome : ¬ (F.children.filter selects).isEmpty = true := by
      intro hempty
      rw [Family.answer, if_pos hempty] at h
      cases h
    rw [Family.answer, if_neg hsome] at h
    dsimp only at h
    cases hpick : ((F.ready selects options).find? fun r => choice.prefer r.1).or
        (F.ready selects options).head? with
    | none =>
      rw [hpick] at h
      dsimp only at h
      split at h
      · cases h
      · split at h
        · cases h
        · cases h
    | some r =>
      rw [hpick] at h
      cases h
      rcases Option.or_eq_some_iff.mp hpick with hfind | ⟨-, hhead⟩
      · exact List.mem_of_find?_eq_some hfind
      · exact List.mem_of_mem_head? hhead
  obtain ⟨c₀, hc₀, hnews⟩ := List.mem_filterMap.mp hready
  obtain ⟨hmem, hsel⟩ := List.mem_filter.mp hc₀
  cases hch : c₀.life.news options with
  | none => simp [hch] at hnews
  | some change₀ =>
    rw [hch, Option.map_some, Option.some.injEq, Prod.mk.injEq] at hnews
    obtain ⟨rfl, rfl⟩ := hnews
    exact ⟨hmem, hsel, hch⟩

def Life.cause? : Life → Option Cause
  | .dead how => some how.cause
  | _ => none

theorem cause_news {c : Child} {options : BitVec 32} {change : Change}
    (h : c.life.news options = some change) :
    causeOf (encode change) = c.life.cause? ∧ (siginfo c change).cause = c.life.cause? := by
  obtain ⟨pid, pgid, uid, life⟩ := c
  cases life with
  | running fresh =>
    cases fresh with
    | true =>
      simp only [Life.news] at h
      split_ifs at h
      cases h
      exact ⟨causeOf_continued, rfl⟩
    | false => cases h
  | stopped sig fresh =>
    cases fresh with
    | true =>
      simp only [Life.news] at h
      split_ifs at h
      cases h
      exact ⟨causeOf_stopped sig, rfl⟩
    | false => cases h
  | dead how =>
    simp only [Life.news] at h
    split_ifs at h
    cases h
    exact ⟨causeOf_death how, cause_siginfo_death _ how⟩

theorem unreported_afterReport {F : Family} {c : Child} (hc : c ∈ F.children) (p : BitVec 32) :
    F.unreported p = ((c.life.cause?.map (c.pid, ·)).toList).filter (·.1 = p) ++
      (F.afterReport c).unreported p := by
  have hchild := Family.child?_of_mem hc
  cases hlife : c.life with
  | dead how =>
    have hafter : F.afterReport c = F.remove c.pid := by
      rw [Family.afterReport, hlife]
      rfl
    rw [hafter]
    by_cases hp : p = c.pid
    · subst hp
      have hgone : (F.remove c.pid).unreported c.pid = [] :=
        unreported_none (by rw [Family.child?_remove, if_pos rfl])
      rw [unreported_dead hc hlife, hgone]
      simp [Life.cause?]
    · have hsame : (F.remove c.pid).unreported p = F.unreported p :=
        unreported_of_child?_eq (by rw [Family.child?_remove, if_neg hp])
      rw [hsame]
      simp [Life.cause?, Ne.symm hp]
  | running fresh =>
    have hafter : F.afterReport c = F.setLife c.pid (.running false) := by
      rw [Family.afterReport, hlife]
      rfl
    rw [hafter, setLife_living hchild (by rw [hlife]; rfl) rfl]
    rfl
  | stopped sig fresh =>
    have hafter : F.afterReport c = F.setLife c.pid (.stopped sig false) := by
      rw [Family.afterReport, hlife]
      rfl
    rw [hafter, setLife_living hchild (by rw [hlife]; rfl) rfl]
    rfl

def KnownOptions (options : BitVec 32) : Prop :=
  options &&& ~~~(wnohang ||| wuntraced ||| wcontinued) = 0

theorem waitpid_known {F : Family} {choice : Choice} {pid options : BitVec 32}
    (hopts : KnownOptions options) (hmin : pid ≠ BitVec.intMin 32) :
    waitpid F choice pid options =
      match F.answer choice (selectsPid F pid) (options ||| wexited) with
      | .report c change => some (.ok (c.pid, encode change), F.afterReport c)
      | .nothing => some (.ok (0, 0), F)
      | .blocked => none
      | .fails reason => some (.error (SysErr.errno reason), F) := by
  have hknown : ¬ (options &&& ~~~(wnohang ||| wuntraced ||| wcontinued) ≠ 0) := not_not.mpr hopts
  rw [waitpid, sysWait4, if_neg hknown, if_neg hmin]
  cases F.answer choice (selectsPid F pid) (options ||| wexited) with
  | report c change =>
    simp only [Option.map_some, fromRetI32_setWidth]
    rfl
  | nothing => rfl
  | blocked => rfl
  | fails reason =>
    simp only [Option.map_some, fromRetI32_raw]
    rfl

theorem waitpid_refused {F : Family} {choice : Choice} {pid options : BitVec 32}
    (h : ¬ KnownOptions options ∨ pid = BitVec.intMin 32) :
    ∃ code, waitpid F choice pid options = some (.error code, F) := by
  by_cases hopts : options &&& ~~~(wnohang ||| wuntraced ||| wcontinued) ≠ 0
  · refine ⟨.EINVAL, ?_⟩
    rw [waitpid, sysWait4, if_pos hopts]
    simp only [Option.map_some, fromRetI32_raw]
    rfl
  · have hmin := h.resolve_left fun hunknown => hunknown (not_not.mp hopts)
    refine ⟨SysErr.errno .ESRCH, ?_⟩
    rw [waitpid, sysWait4, if_neg hopts, if_pos hmin]
    simp only [Option.map_some, fromRetI32_raw]
    rfl

theorem waitpid_cases (F : Family) (choice : Choice) (pid options : BitVec 32) :
    (∃ c change, c ∈ F.children ∧ c.life.news (options ||| wexited) = some change ∧
      waitpid F choice pid options = some (.ok (c.pid, encode change), F.afterReport c)) ∨
    waitpid F choice pid options = some (.ok (0, 0), F) ∨
    waitpid F choice pid options = none ∨
    ∃ code, waitpid F choice pid options = some (.error code, F) := by
  by_cases hrefused : ¬ KnownOptions options ∨ pid = BitVec.intMin 32
  · exact Or.inr (Or.inr (Or.inr (waitpid_refused hrefused)))
  · rw [not_or, not_not] at hrefused
    rw [waitpid_known hrefused.1 hrefused.2]
    cases hans : F.answer choice (selectsPid F pid) (options ||| wexited) with
    | report c change =>
      obtain ⟨hmem, -, hnews⟩ := answer_report hans
      exact Or.inl ⟨c, change, hmem, hnews, rfl⟩
    | nothing => exact Or.inr (Or.inl rfl)
    | blocked => exact Or.inr (Or.inr (Or.inl rfl))
    | fails reason => exact Or.inr (Or.inr (Or.inr ⟨_, rfl⟩))

theorem waitid_cases (F : Family) (choice : Choice)
    (pidfd : BitVec 32 → Except SysErr (Child → Bool)) (idtype id options : BitVec 32) :
    (∃ c change, c ∈ F.children ∧ c.life.news options = some change ∧
      waitid F choice pidfd idtype id options = some (.ok (siginfo c change),
        if has options wnowait then F else F.afterReport c)) ∨
    waitid F choice pidfd idtype id options = some (.ok Siginfo.default, F) ∨
    waitid F choice pidfd idtype id options = none ∨
    ∃ code, waitid F choice pidfd idtype id options = some (.error code, F) := by
  have hfails : ∀ reason : SysErr,
      sysWaitid F choice pidfd idtype id Siginfo.default options =
        some (reason.raw, Siginfo.default, F) →
      ∃ code, waitid F choice pidfd idtype id options = some (.error code, F) := by
    intro reason hsys
    refine ⟨SysErr.errno reason, ?_⟩
    rw [waitid, hsys, Option.map_some]
    dsimp only
    rw [fromRet_raw]
    rfl
  by_cases hopts : options &&& ~~~(wnohang ||| wnowait ||| wexited ||| wstopped ||| wcontinued) ≠ 0 ∨
      options &&& (wexited ||| wstopped ||| wcontinued) = 0
  · exact Or.inr (Or.inr (Or.inr (hfails .EINVAL (by rw [sysWaitid, if_pos hopts]))))
  cases hsel : selectsId F pidfd idtype id with
  | error reason =>
    exact Or.inr (Or.inr (Or.inr (hfails reason (by rw [sysWaitid, if_neg hopts, hsel]))))
  | ok selects =>
    cases hans : F.answer choice selects options with
    | report c change =>
      obtain ⟨hmem, -, hnews⟩ := answer_report hans
      refine Or.inl ⟨c, change, hmem, hnews, ?_⟩
      rw [waitid, sysWaitid, if_neg hopts, hsel]
      simp only [hans]
      rfl
    | nothing =>
      refine Or.inr (Or.inl ?_)
      rw [waitid, sysWaitid, if_neg hopts, hsel]
      simp only [hans]
      rfl
    | blocked =>
      refine Or.inr (Or.inr (Or.inl ?_))
      rw [waitid, sysWaitid, if_neg hopts, hsel]
      simp only [hans]
      rfl
    | fails reason =>
      refine Or.inr (Or.inr (Or.inr (hfails reason ?_)))
      rw [sysWaitid, if_neg hopts, hsel]
      simp only [hans]

theorem pid_ne_zero {F : Family} {c : Child} (hc : c ∈ F.children) : c.pid ≠ 0 := by
  intro h
  have hpos := F.pid_pos c hc
  rw [h] at hpos
  exact absurd hpos (by decide)

theorem unreported_waitpid (F : Family) (choice : Choice) (pid options q : BitVec 32) :
    F.unreported q = (toldDeaths F (.waitpid choice pid options)).filter (·.1 = q) ++
      (step F (.waitpid choice pid options)).unreported q := by
  simp only [toldDeaths, step]
  rcases waitpid_cases F choice pid options with
    ⟨c, change, hc, hnews, hrun⟩ | hrun | hrun | ⟨code, hrun⟩
  · have hpid := pid_ne_zero hc
    have hcause := (cause_news hnews).1
    rw [hrun]
    simp only [hcause, Option.map_some, Option.getD_some]
    have hkept : ((c.life.cause?.map (c.pid, ·)).toList).filter (·.1 ≠ 0) =
        (c.life.cause?.map (c.pid, ·)).toList := by
      cases c.life.cause? with
      | none => rfl
      | some cause => simpa using hpid
    rw [hkept]
    exact unreported_afterReport hc q
  · rw [hrun]
    rfl
  · rw [hrun]
    rfl
  · rw [hrun]
    rfl

theorem unreported_waitid (F : Family) (choice : Choice)
    (pidfd : BitVec 32 → Except SysErr (Child → Bool)) (idtype id options q : BitVec 32) :
    F.unreported q = (toldDeaths F (.waitid choice pidfd idtype id options)).filter (·.1 = q) ++
      (step F (.waitid choice pidfd idtype id options)).unreported q := by
  simp only [toldDeaths, step]
  rcases waitid_cases F choice pidfd idtype id options with
    ⟨c, change, hc, hnews, hrun⟩ | hrun | hrun | ⟨code, hrun⟩
  · rw [hrun]
    simp only [Option.map_some, Option.getD_some, (cause_news hnews).2]
    split
    · rfl
    · exact unreported_afterReport hc q
  · rw [hrun]
    simp only [Option.map_some, Option.getD_some]
    split <;> rfl
  · rw [hrun]
    rfl
  · rw [hrun]
    rfl

/-- One step: the deaths not reported before it and those it brings are the ones
it reports and the ones not reported after it. -/
theorem step_deaths (F : Family) (s : Step) (q : BitVec 32) :
    F.unreported q ++ (deaths F s).filter (·.1 = q) =
      (toldDeaths F s).filter (·.1 = q) ++ (step F s).unreported q := by
  cases s with
  | fork pid pgid uid => simp [deaths, toldDeaths, step, unreported_fork]
  | die p how => simpa [toldDeaths] using unreported_die F p how q
  | stop p sig =>
    have hsame : (step F (.stop p sig)).unreported q = F.unreported q := by
      refine unreported_alter (fun c hc => ⟨?_, rfl⟩) F p q
      cases hlife : c.life <;> simp_all [Life.isRunning, Life.isDead]
    simp [deaths, toldDeaths, hsame]
  | resume p =>
    have hsame : (step F (.resume p)).unreported q = F.unreported q := by
      refine unreported_alter (fun c hc => ⟨?_, rfl⟩) F p q
      cases hlife : c.life <;> simp_all [Life.isStopped, Life.isDead]
    simp [deaths, toldDeaths, hsame]
  | regroup p pgid =>
    have hsame : (step F (.regroup p pgid)).unreported q = F.unreported q := by
      refine unreported_alter (fun c hc => ?_) F p q
      simpa using hc
    simp [deaths, toldDeaths, hsame]
  | waitpid choice pid options =>
    simpa [deaths] using unreported_waitpid F choice pid options q
  | waitid choice pidfd idtype id options =>
    simpa [deaths] using unreported_waitid F choice pidfd idtype id options q

theorem history_deaths (F : Family) (steps : List Step) (q : BitVec 32) :
    F.unreported q ++ (history F steps).died.filter (·.1 = q) =
      (history F steps).told.filter (·.1 = q) ++ (history F steps).family.unreported q := by
  induction steps generalizing F with
  | nil => simp [history]
  | cons s steps ih =>
    have hstep := step_deaths F s q
    have hlater := ih (step F s)
    simp only [history, List.filter_append]
    rw [← List.append_assoc, hstep, List.append_assoc, hlater, List.append_assoc]

theorem answer_of_ready {F : Family} {choice : Choice} {selects : Child → Bool}
    {options : BitVec 32} {r : Child × Change} (h : r ∈ F.ready selects options) :
    ∃ c change, F.answer choice selects options = .report c change := by
  obtain ⟨c₀, hc₀, -⟩ := List.mem_filterMap.mp h
  have hsome : ¬ (F.children.filter selects).isEmpty = true := by
    rw [List.isEmpty_iff]
    exact List.ne_nil_of_mem hc₀
  rw [Family.answer, if_neg hsome]
  dsimp only
  cases hpick : ((F.ready selects options).find? fun r => choice.prefer r.1).or
      (F.ready selects options).head? with
  | some r => exact ⟨r.1, r.2, rfl⟩
  | none =>
    have hhead := (Option.or_eq_none_iff.mp hpick).2
    rw [List.head?_eq_none_iff] at hhead
    rw [hhead] at h
    cases h

theorem has_wexited (options : BitVec 32) : has (options ||| wexited) wexited = true := by
  have hbit : ((options ||| wexited) &&& wexited) = wexited := by
    ext i hi
    simp only [BitVec.getElem_and, BitVec.getElem_or]
    cases options[i] <;> cases wexited[i] <;> rfl
  rw [has, hbit]
  decide

theorem waitpid_dead {F : Family} {p : BitVec 32} {c : Child} {how : Death}
    (hc : F.child? p = some c) (hlife : c.life = .dead how) (choice : Choice) {options : BitVec 32}
    (hopts : KnownOptions options) :
    waitpid F choice p options = some (.ok (p, encode how.change), F.remove p) := by
  obtain ⟨hmem, hpid⟩ := Family.mem_children hc
  have hpos : 0 < p.toInt := hpid ▸ F.pid_pos c hmem
  have hmin : p ≠ BitVec.intMin 32 := by
    rintro rfl
    exact absurd hpos (by decide)
  have hselects : ∀ c', selectsPid F p c' = (c'.pid == p) := fun c' => if_pos hpos
  have hnews : c.life.news (options ||| wexited) = some how.change := by
    rw [hlife, Life.news, if_pos (has_wexited options)]
  have hready : (c, how.change) ∈ F.ready (selectsPid F p) (options ||| wexited) := by
    refine List.mem_filterMap.mpr ⟨c, List.mem_filter.mpr ⟨hmem, ?_⟩, ?_⟩
    · rw [hselects, hpid]
      exact beq_self_eq_true p
    · rw [hnews]
      rfl
  have hreport : ∃ c change,
      F.answer choice (selectsPid F p) (options ||| wexited) = .report c change :=
    answer_of_ready hready
  obtain ⟨c', change, hans⟩ := hreport
  obtain ⟨hmem', hsel', hnews'⟩ := answer_report hans
  -- only one child has that pid
  obtain rfl : c' = c := by
    rw [hselects, beq_iff_eq] at hsel'
    have hchild := Family.child?_of_mem hmem'
    rw [hsel', hc, Option.some.injEq] at hchild
    exact hchild.symm
  obtain rfl : change = how.change := Option.some.inj (hnews'.symm.trans hnews)
  have hafter : F.afterReport c' = F.remove p := by
    rw [Family.afterReport, hlife, hpid]
    rfl
  rw [waitpid_known hopts hmin, hans]
  dsimp only
  rw [hafter, hpid]

theorem waitpid_gone {F : Family} {p : BitVec 32} (hp : 0 < p.toInt) (hgone : F.child? p = none)
    (choice : Choice) {options : BitVec 32} (hopts : KnownOptions options) :
    waitpid F choice p options = some (.error .ECHILD, F) := by
  have hmin : p ≠ BitVec.intMin 32 := by
    rintro rfl
    exact absurd hp (by decide)
  have hnone : F.children.filter (selectsPid F p) = [] := by
    refine List.filter_eq_nil_iff.mpr fun c hc hsel => ?_
    rw [selectsPid, if_pos hp] at hsel
    exact List.find?_eq_none.mp hgone c hc hsel
  have hans : F.answer choice (selectsPid F p) (options ||| wexited) = .fails .ECHILD := by
    rw [Family.answer, hnone]
    rfl
  rw [waitpid_known hopts hmin, hans]
  rfl

def childless (group : BitVec 32) : Family := ⟨group, [], List.nodup_nil, by simp⟩

/-- However forks, deaths, stops, continuations and waits follow each other: the
deaths of a pid the caller has been told of, then the one it has not, are the
deaths there were, in order and with their causes, so that none is lost, told
twice or mistaken for a stop; a death not told yet is told by the next `waitpid`
for that pid, and after it there is no such child. -/
theorem deaths_told_once (group : BitVec 32) (steps : List Step) (p : BitVec 32) :
    let h := history (childless group) steps
    h.died.filter (·.1 = p) = h.told.filter (·.1 = p) ++ h.family.unreported p ∧
    ∀ cause, h.family.unreported p = [(p, cause)] →
      ∀ choice options, KnownOptions options → ∃ status after,
        waitpid h.family choice p options = some (.ok (p, status), after) ∧
        causeOf status = some cause ∧
        ∀ choice' options', KnownOptions options' →
          waitpid after choice' p options' = some (.error .ECHILD, after) := by
  intro h
  refine ⟨history_deaths (childless group) steps p, fun cause hcause choice options hopts => ?_⟩
  cases hchild : h.family.child? p with
  | none =>
    rw [unreported_none hchild] at hcause
    cases hcause
  | some c =>
    cases hlife : c.life with
    | running fresh =>
      rw [unreported_living hchild (by rw [hlife]; rfl)] at hcause
      cases hcause
    | stopped sig fresh =>
      rw [unreported_living hchild (by rw [hlife]; rfl)] at hcause
      cases hcause
    | dead how =>
      obtain ⟨hmem, hpid⟩ := Family.mem_children hchild
      subst hpid
      rw [unreported_dead hmem hlife] at hcause
      obtain rfl : how.cause = cause := by simpa using hcause
      have hgone : (h.family.remove c.pid).child? c.pid = none := by
        rw [Family.child?_remove, if_pos rfl]
      exact ⟨_, _, waitpid_dead hchild hlife choice hopts, causeOf_death how,
        fun choice' options' hopts' =>
          waitpid_gone (h.family.pid_pos c hmem) hgone choice' hopts'⟩

end RustyLibc.Wait
