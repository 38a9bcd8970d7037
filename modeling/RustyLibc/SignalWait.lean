import RustyLibc.Outcome
import RustyLibc.SyscallReturn

/-!
# Waiting for a signal without missing it (`signal.rs`)

`sigprocmask` and `sigsuspend` as the documentation of the latter puts them
together: block `SIGCHLD`, check the state of a job, and suspend with `SIGCHLD`
unblocked until its handler has run. The thread, the death of the child, other
signals and the delivery of signals to a running thread interleave in any way.
The kernel follows sigprocmask(2) and sigsuspend(2): a call of the latter takes
one turn of the thread to fall asleep, and returns in the first later turn that
finds a signal to deliver. Every signal here has a handler; that of `SIGCHLD`
looks after the job, and handlers run to their end.
-/

namespace RustyLibc.Signal
open Linux

abbrev Sigset := BitVec 64

def sigchld : BitVec 32 := 17

def sigBlock : BitVec 32 := 0
def sigUnblock : BitVec 32 := 1
def sigSetmask : BitVec 32 := 2

/-- `sigmask`: the subtraction and the shift panic on overflow. -/
def sigmask (sig : BitVec 32) : Outcome Empty Sigset :=
  if sig = BitVec.intMin 32 then .panic
  else
    let amount := ((sig - 1).signExtend 64).toNat
    if amount < 64 then .ok ((1 : Sigset) <<< amount) else .panic

structure Thread where
  mask : Sigset
  pending : Sigset

def unblockable : Sigset := (1 : Sigset) <<< 8 ||| (1 : Sigset) <<< 18

def blockable (set : Sigset) : Sigset := set &&& ~~~unblockable

def sysRtSigprocmask (t : Thread) (how : BitVec 32) (set old : Sigset) :
    BitVec 64 × Sigset × Thread :=
  if how = sigBlock then (0, t.mask, { t with mask := t.mask ||| blockable set })
  else if how = sigUnblock then (0, t.mask, { t with mask := t.mask &&& ~~~blockable set })
  else if how = sigSetmask then (0, t.mask, { t with mask := blockable set })
  else (SysErr.EINVAL.raw, old, t)

def Thread.deliverable (t : Thread) : Sigset := t.pending &&& ~~~t.mask

def Thread.delivered (t : Thread) : Thread := { t with pending := t.pending &&& t.mask }

/-- rt_sigsuspend(2), one turn at a time: `asleep` holds the mask to put back once
the thread sleeps. The left result says that it sleeps on, the right one is the
result register. -/
def sysRtSigsuspend (t : Thread) (set : Sigset) (asleep : Option Sigset) :
    Thread × (Sigset ⊕ BitVec 64) :=
  match asleep with
  | none => ({ t with mask := blockable set }, .inl t.mask)
  | some restore =>
    if t.deliverable = 0 then (t, .inl restore)
    else ({ t.delivered with mask := restore }, .inr SysErr.EINTR.raw)

def sigprocmask (t : Thread) (how : BitVec 32) (set : Sigset) : Except Errno Sigset × Thread :=
  let (ret, old, t) := sysRtSigprocmask t how set 0
  ((fromRet ret).map fun _ => old, t)

def sigsuspend (t : Thread) (mask : Sigset) (asleep : Option Sigset) :
    Thread × (Sigset ⊕ Errno) :=
  let (t, result) := sysRtSigsuspend t mask asleep
  (t, result.map id fun ret => match fromRet ret with
    | .ok _ => ⟨0⟩
    | .error e => e)

def chld : Sigset := (1 : Sigset) <<< 16

@[simp]
theorem sigmask_sigchld : sigmask sigchld = .ok chld := by decide

inductive Place where
  | start
  | check (saved : Sigset)
  | suspend (saved : Sigset)
  | asleep (saved restore : Sigset)
  | finish (saved : Sigset)
  | done
  | failed (reason : Errno)
  | panicked
  deriving DecidableEq

structure World where
  thread : Thread
  place : Place
  dead : Bool
  noticed : Bool

def World.told (w : World) : Bool :=
  if w.thread.deliverable &&& chld ≠ 0 then w.dead else w.noticed

def World.handle (w : World) : World :=
  { w with thread := w.thread.delivered, noticed := w.told }

def World.withSigchld (w : World) (next : Sigset → World) : World :=
  match sigmask sigchld with
  | .ok bit => next bit
  | _ => { w with place := .panicked }

def World.suspend (w : World) (saved : Sigset) (asleep : Option Sigset) : World :=
  w.withSigchld fun bit => match sigsuspend w.thread (saved &&& ~~~bit) asleep with
    | (t, .inl restore) => { w with thread := t, place := .asleep saved restore }
    | (t, .inr e) =>
      { w with
        thread := t
        noticed := w.told
        place := if e = .EINTR then .check saved else .failed e }

def World.turn (w : World) : World :=
  match w.place with
  | .start => w.withSigchld fun bit => match sigprocmask w.thread sigBlock bit with
    | (.ok old, t) => { w with thread := t, place := .check old }
    | (.error e, t) => { w with thread := t, place := .failed e }
  | .check saved => { w with place := if w.noticed then .finish saved else .suspend saved }
  | .suspend saved => w.suspend saved none
  | .asleep saved restore => w.suspend saved (some restore)
  | .finish saved => match sigprocmask w.thread sigSetmask saved with
    | (.ok _, t) => { w with thread := t, place := .done }
    | (.error e, t) => { w with thread := t, place := .failed e }
  | .done => w
  | .failed _ => w
  | .panicked => w

inductive Moment where
  | turn
  | death
  | raise (set : Sigset)
  | deliver
  deriving DecidableEq

def Place.isAsleep : Place → Bool
  | .asleep _ _ => true
  | _ => false

/-- `deliver` is for a thread that runs: one that sleeps is woken by its own turn. -/
def World.step (w : World) : Moment → World
  | .turn => w.turn
  | .death =>
    { w with dead := true, thread := { w.thread with pending := w.thread.pending ||| chld } }
  | .raise set => { w with thread := { w.thread with pending := w.thread.pending ||| set } }
  | .deliver => if w.place.isAsleep then w else w.handle

def World.run (w : World) (moments : List Moment) : World := moments.foldl World.step w

def World.init (t : Thread) : World := ⟨t, .start, false, false⟩

theorem chld_bit : chld.getLsbD 16 = true := by decide

theorem chld_bit_of_ne {i : ℕ} (h : i ≠ 16) : chld.getLsbD i = false := by
  have hshift : chld = BitVec.twoPow 64 16 := by decide
  rw [hshift, BitVec.getLsbD_twoPow]
  simp [Ne.symm h]

theorem and_chld_ne_zero_iff (set : Sigset) : set &&& chld ≠ 0 ↔ set.getLsbD 16 = true := by
  constructor
  · intro hne
    by_contra hbit
    refine hne (BitVec.eq_of_getLsbD_eq fun i hi => ?_)
    have hzero : (0 : Sigset).getLsbD i = false := BitVec.getLsbD_zero
    rw [Bool.not_eq_true] at hbit
    rw [BitVec.getLsbD_and, hzero]
    by_cases hi16 : i = 16
    · rw [hi16, hbit, Bool.false_and]
    · rw [chld_bit_of_ne hi16, Bool.and_false]
  · intro hbit hzero
    have hand := congrArg (BitVec.getLsbD · 16) hzero
    simp only [BitVec.getLsbD_and, hbit, chld_bit] at hand
    cases hand

theorem blockable_bit (set : Sigset) : (blockable set).getLsbD 16 = set.getLsbD 16 := by
  have hfree : unblockable.getLsbD 16 = false := by decide
  rw [blockable, BitVec.getLsbD_and, BitVec.getLsbD_not, hfree]
  simp only [Bool.not_false, Bool.and_true, decide_true, Nat.reduceLT]

theorem blockable_chld : blockable chld = chld := by decide

theorem or_chld_bit (set : Sigset) : (set ||| chld).getLsbD 16 = true := by
  rw [BitVec.getLsbD_or, chld_bit, Bool.or_true]

theorem andNot_chld_bit (set : Sigset) : (set &&& ~~~chld).getLsbD 16 = false := by
  rw [BitVec.getLsbD_and, BitVec.getLsbD_not, chld_bit, Bool.not_true, Bool.and_false,
    Bool.and_false]

theorem deliverable_bit (t : Thread) :
    t.deliverable.getLsbD 16 = (t.pending.getLsbD 16 && !t.mask.getLsbD 16) := by
  rw [Thread.deliverable, BitVec.getLsbD_and, BitVec.getLsbD_not]
  simp only [Nat.reduceLT, decide_true, Bool.true_and]

theorem delivered_bit (t : Thread) :
    t.delivered.pending.getLsbD 16 = (t.pending.getLsbD 16 && t.mask.getLsbD 16) := by
  rw [Thread.delivered, BitVec.getLsbD_and]

structure Owed (w : World) : Prop where
  told : w.noticed = true → w.dead = true
  pending : w.dead = true → w.noticed = false → w.thread.pending.getLsbD 16 = true

/-- What holds at each place; `old` is the mask at the start. From the check to
the end of the suspension the handler of `SIGCHLD` does not run. -/
def Placed (old : Sigset) (w : World) : Prop :=
  match w.place with
  | .start => w.thread.mask = old
  | .check saved => saved = old ∧ w.thread.mask = old ||| chld
  | .suspend saved => saved = old ∧ w.thread.mask = old ||| chld ∧ w.noticed = false
  | .asleep saved restore => saved = old ∧ restore = old ||| chld ∧
      w.thread.mask = blockable (old &&& ~~~chld) ∧ w.noticed = false
  | .finish saved => saved = old ∧ w.thread.mask = old ||| chld ∧ w.noticed = true
  | .done => w.thread.mask = blockable old ∧ w.noticed = true
  | .failed _ => False
  | .panicked => False

theorem handle_noticed {w : World} (h : Owed w) :
    (w.noticed = true → w.handle.noticed = true) ∧
      (w.thread.deliverable.getLsbD 16 = false → w.handle.noticed = w.noticed) ∧
      (w.thread.deliverable.getLsbD 16 = true → w.handle.noticed = w.dead) := by
  have hiff := and_chld_ne_zero_iff w.thread.deliverable
  refine ⟨fun hn => ?_, fun hbit => ?_, fun hbit => ?_⟩
  · simp only [World.handle, World.told]
    split
    · exact h.told hn
    · exact hn
  · exact if_neg fun hne => Bool.noConfusion (hbit.symm.trans (hiff.mp hne))
  · exact if_pos (hiff.mpr hbit)

theorem handle_owed {w : World} (h : Owed w) : Owed w.handle := by
  obtain ⟨-, hkept, hset⟩ := handle_noticed h
  cases hbit : w.thread.deliverable.getLsbD 16 with
  | true =>
    have hnoticed := hset hbit
    refine ⟨fun hn => hnoticed.symm.trans hn, fun hdead hn => ?_⟩
    rw [hnoticed] at hn
    have hdead' : w.dead = true := hdead
    rw [hdead'] at hn
    cases hn
  | false =>
    have hnoticed := hkept hbit
    refine ⟨fun hn => h.told (hnoticed.symm.trans hn), fun hdead hn => ?_⟩
    have hpending := h.pending hdead (hnoticed.symm.trans hn)
    rw [deliverable_bit, hpending, Bool.true_and, Bool.not_eq_false'] at hbit
    show w.thread.delivered.pending.getLsbD 16 = true
    rw [delivered_bit, hpending, hbit, Bool.true_and]

theorem handle_blocked {w : World} (h : Owed w) (hmask : w.thread.mask.getLsbD 16 = true) :
    w.handle.noticed = w.noticed := by
  refine (handle_noticed h).2.1 ?_
  rw [deliverable_bit, hmask, Bool.not_true, Bool.and_false]

theorem sigprocmask_block (t : Thread) :
    sigprocmask t sigBlock chld = (.ok t.mask, { t with mask := t.mask ||| chld }) := by
  rw [sigprocmask, sysRtSigprocmask, if_pos rfl, blockable_chld]
  rfl

theorem sigprocmask_setmask (t : Thread) (set : Sigset) :
    sigprocmask t sigSetmask set = (.ok t.mask, { t with mask := blockable set }) := rfl

@[simp]
theorem withSigchld_eq (w : World) (next : Sigset → World) : w.withSigchld next = next chld := by
  simp only [World.withSigchld, sigmask_sigchld]

theorem sigsuspend_enter (t : Thread) (mask : Sigset) :
    sigsuspend t mask none = ({ t with mask := blockable mask }, .inl t.mask) := rfl

theorem sigsuspend_quiet {t : Thread} (hnone : t.deliverable = 0) (mask restore : Sigset) :
    sigsuspend t mask (some restore) = (t, .inl restore) := by
  simp only [sigsuspend, sysRtSigsuspend, if_pos hnone, Sum.map_inl, id_eq]

theorem sigsuspend_woken {t : Thread} (hsome : t.deliverable ≠ 0) (mask restore : Sigset) :
    sigsuspend t mask (some restore) = ({ t.delivered with mask := restore }, .inr .EINTR) := by
  have heintr : fromRet SysErr.EINTR.raw = .error .EINTR := fromRet_raw _
  simp only [sigsuspend, sysRtSigsuspend, if_neg hsome, Sum.map_inr, heintr]

structure Safe (old : Sigset) (w : World) : Prop where
  owed : Owed w
  placed : Placed old w

theorem turn_eq_start {w : World} (hp : w.place = .start) : w.turn =
    { w with
      thread := { w.thread with mask := w.thread.mask ||| chld }
      place := .check w.thread.mask } := by
  simp only [World.turn, hp, withSigchld_eq, sigprocmask_block]

theorem turn_eq_check {w : World} {saved : Sigset} (hp : w.place = .check saved) :
    w.turn = { w with place := if w.noticed then .finish saved else .suspend saved } := by
  simp only [World.turn, hp]

theorem turn_eq_suspend {w : World} {saved : Sigset} (hp : w.place = .suspend saved) : w.turn =
    { w with
      thread := { w.thread with mask := blockable (saved &&& ~~~chld) }
      place := .asleep saved w.thread.mask } := by
  simp only [World.turn, hp, World.suspend, withSigchld_eq, sigsuspend_enter]

theorem turn_eq_quiet {w : World} {saved restore : Sigset} (hp : w.place = .asleep saved restore)
    (hnone : w.thread.deliverable = 0) : w.turn = w := by
  simp only [World.turn, hp, World.suspend, withSigchld_eq, sigsuspend_quiet hnone]
  rw [← hp]

theorem turn_eq_woken {w : World} {saved restore : Sigset} (hp : w.place = .asleep saved restore)
    (hsome : w.thread.deliverable ≠ 0) : w.turn =
      { w.handle with
        thread := { w.handle.thread with mask := restore }, place := .check saved } := by
  simp only [World.turn, hp, World.suspend, withSigchld_eq, sigsuspend_woken hsome, if_true,
    World.handle]

theorem turn_eq_finish {w : World} {saved : Sigset} (hp : w.place = .finish saved) : w.turn =
    { w with thread := { w.thread with mask := blockable saved }, place := .done } := by
  simp only [World.turn, hp, sigprocmask_setmask]

theorem turn_eq_done {w : World} (hp : w.place = .done) : w.turn = w := by
  simp only [World.turn, hp]

theorem Placed.ok {old : Sigset} {w : World} (h : Placed old w) :
    (∀ reason, w.place ≠ .failed reason) ∧ w.place ≠ .panicked := by
  constructor
  · intro reason hp
    rwa [Placed, hp] at h
  · intro hp
    rwa [Placed, hp] at h

theorem safe_turn {old : Sigset} {w : World} (h : Safe old w) : Safe old w.turn := by
  have hok := h.placed.ok
  obtain ⟨howed, hplaced⟩ := h
  unfold Placed at hplaced
  cases hp : w.place with
  | start =>
    rw [hp] at hplaced
    rw [turn_eq_start hp]
    exact ⟨⟨howed.told, howed.pending⟩, hplaced, by rw [← hplaced]⟩
  | check saved =>
    rw [hp] at hplaced
    rw [turn_eq_check hp]
    refine ⟨⟨howed.told, howed.pending⟩, ?_⟩
    unfold Placed
    cases hn : w.noticed with
    | true => exact ⟨hplaced.1, hplaced.2, rfl⟩
    | false => exact ⟨hplaced.1, hplaced.2, rfl⟩
  | suspend saved =>
    rw [hp] at hplaced
    obtain ⟨rfl, hmask, hn⟩ := hplaced
    rw [turn_eq_suspend hp]
    exact ⟨⟨howed.told, howed.pending⟩, rfl, hmask, rfl, hn⟩
  | asleep saved restore =>
    rw [hp] at hplaced
    obtain ⟨rfl, hrestore, hmask, hn⟩ := hplaced
    by_cases hnone : w.thread.deliverable = 0
    · rw [turn_eq_quiet hp hnone]
      refine ⟨howed, ?_⟩
      unfold Placed
      rw [hp]
      exact ⟨rfl, hrestore, hmask, hn⟩
    · rw [turn_eq_woken hp hnone]
      have hhandled := handle_owed howed
      exact ⟨⟨hhandled.told, hhandled.pending⟩, rfl, hrestore⟩
  | finish saved =>
    rw [hp] at hplaced
    obtain ⟨rfl, -, hn⟩ := hplaced
    rw [turn_eq_finish hp]
    exact ⟨⟨howed.told, howed.pending⟩, rfl, hn⟩
  | done =>
    rw [turn_eq_done hp]
    refine ⟨howed, ?_⟩
    unfold Placed
    rw [hp] at hplaced ⊢
    exact hplaced
  | failed reason => exact absurd hp (hok.1 reason)
  | panicked => exact absurd hp hok.2

theorem placed_of_same {old : Sigset} {w w' : World} (h : Placed old w)
    (hplace : w'.place = w.place) (hmask : w'.thread.mask = w.thread.mask)
    (hnoticed : w'.noticed = w.noticed) : Placed old w' := by
  unfold Placed at h ⊢
  rw [hplace, hmask, hnoticed]
  exact h

theorem safe_deliver {old : Sigset} {w : World} (h : Safe old w)
    (hawake : w.place.isAsleep = false) :
    Safe old w.handle := by
  have hok := h.placed.ok
  obtain ⟨howed, hplaced⟩ := h
  refine ⟨handle_owed howed, ?_⟩
  have hblocked : w.thread.mask = old ||| chld → Placed old w.handle := by
    intro hmask
    have hbit : w.thread.mask.getLsbD 16 = true := by rw [hmask, or_chld_bit]
    exact placed_of_same hplaced rfl rfl (handle_blocked howed hbit)
  cases hp : w.place with
  | start =>
    unfold Placed at hplaced ⊢
    rw [hp] at hplaced
    simp only [World.handle, hp]
    exact hplaced
  | check saved =>
    apply hblocked
    unfold Placed at hplaced
    rw [hp] at hplaced
    exact hplaced.2
  | suspend saved =>
    apply hblocked
    unfold Placed at hplaced
    rw [hp] at hplaced
    exact hplaced.2.1
  | asleep saved restore =>
    rw [hp] at hawake
    cases hawake
  | finish saved =>
    apply hblocked
    unfold Placed at hplaced
    rw [hp] at hplaced
    exact hplaced.2.1
  | done =>
    unfold Placed at hplaced ⊢
    rw [hp] at hplaced
    have hplace : w.handle.place = .done := hp
    rw [hplace]
    exact ⟨hplaced.1, (handle_noticed howed).1 hplaced.2⟩
  | failed reason => exact absurd hp (hok.1 reason)
  | panicked => exact absurd hp hok.2

theorem safe_step {old : Sigset} {w : World} (h : Safe old w) (m : Moment) : Safe old (w.step m) := by
  cases m with
  | turn => exact safe_turn h
  | death =>
    refine ⟨⟨fun _ => rfl, fun _ _ => or_chld_bit _⟩, placed_of_same h.placed rfl rfl rfl⟩
  | raise set =>
    refine ⟨⟨h.owed.told, fun hdead hn => ?_⟩, placed_of_same h.placed rfl rfl rfl⟩
    show (w.thread.pending ||| set).getLsbD 16 = true
    rw [BitVec.getLsbD_or, h.owed.pending hdead hn, Bool.true_or]
  | deliver =>
    simp only [World.step]
    split
    · exact h
    · rename_i hawake
      exact safe_deliver h (by simpa using hawake)

theorem safe_run {old : Sigset} {w : World} (h : Safe old w) (moments : List Moment) :
    Safe old (w.run moments) := by
  induction moments generalizing w with
  | nil => exact h
  | cons m moments ih => exact ih (safe_step h m)

theorem safe_init (t : Thread) : Safe t.mask (World.init t) :=
  ⟨⟨fun h => Bool.noConfusion h, fun h => Bool.noConfusion h⟩, rfl⟩

def World.rank (w : World) : ℕ :=
  match w.place with
  | .start => if w.noticed then 3 else 6
  | .check _ => if w.noticed then 2 else 5
  | .suspend _ => 4
  | .asleep _ _ => 3
  | .finish _ => 1
  | .done => 0
  | .failed _ => 0
  | .panicked => 0

theorem asleep_safe {old : Sigset} {w : World} (h : Safe old w) (hasleep : w.place.isAsleep = true) :
    w.noticed = false ∧ (w.dead = true → w.thread.deliverable.getLsbD 16 = true) := by
  obtain ⟨howed, hplaced⟩ := h
  unfold Placed at hplaced
  cases hp : w.place with
  | asleep saved restore =>
    rw [hp] at hplaced
    obtain ⟨-, -, hmask, hn⟩ := hplaced
    refine ⟨hn, fun hdead => ?_⟩
    rw [deliverable_bit, howed.pending hdead hn, hmask, blockable_bit, andNot_chld_bit]
    rfl
  | _ =>
    rw [hp] at hasleep
    cases hasleep

theorem rank_turn {old : Sigset} {w : World} (h : Safe old w) (hdead : w.dead = true) :
    w.turn.dead = true ∧ w.turn.rank ≤ w.rank - 1 := by
  cases hp : w.place with
  | start =>
    rw [turn_eq_start hp]
    refine ⟨hdead, ?_⟩
    simp only [World.rank, hp]
    cases w.noticed <;> decide
  | check saved =>
    rw [turn_eq_check hp]
    refine ⟨hdead, ?_⟩
    simp only [World.rank, hp]
    cases w.noticed with
    | true => exact le_rfl
    | false => exact le_rfl
  | suspend saved =>
    rw [turn_eq_suspend hp]
    simp only [World.rank, hp]
    exact ⟨hdead, le_rfl⟩
  | asleep saved restore =>
    have hbit := (asleep_safe h (by rw [hp]; rfl)).2 hdead
    have hsome : w.thread.deliverable ≠ 0 := by
      intro hzero
      rw [hzero] at hbit
      cases hbit
    have hnoticed : w.handle.noticed = true :=
      ((handle_noticed h.owed).2.2 hbit).trans hdead
    rw [turn_eq_woken hp hsome]
    refine ⟨hdead, ?_⟩
    simp only [World.rank, hp, hnoticed, if_true]
    decide
  | finish saved =>
    rw [turn_eq_finish hp]
    simp only [World.rank, hp]
    exact ⟨hdead, le_rfl⟩
  | done =>
    rw [turn_eq_done hp]
    simp only [World.rank, hp]
    exact ⟨hdead, le_rfl⟩
  | failed reason => exact absurd hp (h.placed.ok.1 reason)
  | panicked => exact absurd hp h.placed.ok.2

theorem rank_handle {w : World} (h : Owed w) : w.handle.rank ≤ w.rank := by
  have hplace : w.handle.place = w.place := rfl
  have hmono := (handle_noticed h).1
  unfold World.rank
  rw [hplace]
  cases w.place with
  | start =>
    cases hn : w.noticed with
    | true => rw [hmono hn]
    | false => cases w.handle.noticed <;> decide
  | check saved =>
    cases hn : w.noticed with
    | true => rw [hmono hn]
    | false => cases w.handle.noticed <;> simp
  | _ => exact le_rfl

theorem rank_step {old : Sigset} {w : World} (h : Safe old w) (hdead : w.dead = true) (m : Moment) :
    (w.step m).dead = true ∧ (w.step m).rank ≤ w.rank - if m = .turn then 1 else 0 := by
  cases m with
  | turn => exact rank_turn h hdead
  | death => exact ⟨rfl, le_rfl⟩
  | raise set => exact ⟨hdead, le_rfl⟩
  | deliver =>
    simp only [World.step]
    split
    · exact ⟨hdead, le_rfl⟩
    · exact ⟨hdead, rank_handle h.owed⟩

theorem rank_run {old : Sigset} {w : World} (h : Safe old w) (hdead : w.dead = true)
    (moments : List Moment) : (w.run moments).rank ≤ w.rank - moments.count .turn := by
  induction moments generalizing w with
  | nil => exact le_rfl
  | cons m moments ih =>
    obtain ⟨hdead', hrank⟩ := rank_step h hdead m
    have hlater := ih (safe_step h m) hdead'
    rw [World.run, List.foldl_cons, ← World.run, List.count_cons]
    by_cases hm : m = .turn
    · simp only [hm, if_true, beq_self_eq_true] at hrank hlater ⊢
      omega
    · have hne : (m == Moment.turn) = false := by simpa using hm
      simp only [hm, if_false, hne, Bool.false_eq_true] at hrank hlater ⊢
      omega

theorem rank_le_six (w : World) : w.rank ≤ 6 := by
  unfold World.rank
  split
  · split <;> omega
  · split <;> omega
  all_goals omega

theorem done_of_rank {old : Sigset} {w : World} (h : Safe old w) (hrank : w.rank = 0) :
    w.place = .done := by
  have hok := h.placed.ok
  obtain ⟨-, hplaced⟩ := h
  unfold World.rank at hrank
  unfold Placed at hplaced
  cases hp : w.place with
  | done => rfl
  | failed reason => exact absurd hp (hok.1 reason)
  | panicked => exact absurd hp hok.2
  | start =>
    rw [hp] at hrank
    cases hn : w.noticed <;> simp [hn] at hrank
  | check saved =>
    rw [hp] at hrank
    cases hn : w.noticed <;> simp [hn] at hrank
  | suspend saved => simp [hp] at hrank
  | asleep saved restore => simp [hp] at hrank
  | finish saved => simp [hp] at hrank

/-- In every interleaving: a thread that sleeps has not been told of the death of
the child, and if there was one it has a signal to wake up by; once the child is
dead, six turns are enough to end the wait, whatever other signals come in
between; and when it ends the death has been noticed and the mask is the one from
before. -/
theorem wait_misses_nothing (t : Thread) (moments : List Moment) :
    let w := (World.init t).run moments
    (w.place.isAsleep = true →
      w.noticed = false ∧ (w.dead = true → w.thread.deliverable ≠ 0)) ∧
    (w.dead = true → ∀ later : List Moment, 6 ≤ later.count .turn →
      (w.run later).place = .done) ∧
    (w.place = .done → w.noticed = true ∧ w.dead = true ∧ w.thread.mask = blockable t.mask) := by
  intro w
  have hsafe : Safe t.mask w := safe_run (safe_init t) moments
  refine ⟨fun hasleep => ?_, fun hdead later hturns => ?_, fun hdone => ?_⟩
  · obtain ⟨hn, hbit⟩ := asleep_safe hsafe hasleep
    refine ⟨hn, fun hdead hzero => ?_⟩
    have hone := hbit hdead
    rw [hzero] at hone
    cases hone
  · have hrank := rank_run hsafe hdead later
    have hsix := rank_le_six w
    exact done_of_rank (safe_run hsafe later) (by omega)
  · have hplaced := hsafe.placed
    unfold Placed at hplaced
    rw [hdone] at hplaced
    exact ⟨hplaced.2, hsafe.owed.told hplaced.2, hplaced.1⟩

end RustyLibc.Signal
