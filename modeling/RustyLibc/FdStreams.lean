import RustyLibc.HostCalls
import RustyLibc.Errno

/-!
# Reads and writes over a descriptor (`fd.rs`)

`writeAll` and `readAll` as the source computes them, against a host that
answers `read` and `write` in any way the kernel may: a count up to the one asked
for, or an error. What a descriptor accepted or handed over is read off the
trace. The number of passes is the number of answers that are watched; a run
that needs more of them ends in `diverge`, and then every answer so far was
`EINTR` or moved bytes.
-/

namespace RustyLibc.Fd
open HostCalls Outcome

abbrev RawFd := ℤ

def atFdcwd : RawFd := -100
def oRdonly : ℤ := 0

/-- The calls of `fd.rs`, in the form they reach the kernel: `open` is `openat`
on the working directory. A path is its bytes without the final NUL. -/
inductive Request where
  | openat (dir : RawFd) (path : List UInt8) (flags : ℤ) (mode : UInt32)
  | read (fd : RawFd) (len : ℕ)
  | write (fd : RawFd) (bytes : List UInt8)
  | close (fd : RawFd)
  deriving DecidableEq

/-- What a successful call hands over. A read never fills more than the buffer
it was given, and a write never takes more than it was offered. -/
abbrev Reply : Request → Type
  | .openat _ _ _ _ => RawFd
  | .read _ len => { bs : List UInt8 // bs.length ≤ len }
  | .write _ bytes => { n : ℕ // n ≤ bytes.length }
  | .close _ => Unit

variable {σ : Type}

abbrev Kernel (σ : Type) := Host Reply Errno σ

abbrev Call (σ α : Type) := Sys Reply Errno σ α

abbrev Step := Event Reply Errno

def writeAllStep (kernel : Kernel σ) (fd : RawFd) (buf : Slice) : Call σ (Pass Slice Unit) :=
  if buf.len = 0 then pure (.done ())
  else do
    match ← Sys.attempt kernel (.write fd buf.bytes) with
    | .ok n =>
      if n.val = 0 then Sys.lift (.err Errno.EIO)
      else do
        let rest ← Sys.lift (buf.rangeFrom n.val)
        pure (.next rest)
    | .error e => if e = .EINTR then pure (.next buf) else Sys.lift (.err e)

def writeAll (kernel : Kernel σ) (fd : RawFd) (passes : ℕ) (buf : Slice) : Call σ Unit :=
  Sys.loop (writeAllStep kernel fd) passes buf

def readAllStep (kernel : Kernel σ) (fd : RawFd) (st : Slice × ℕ) :
    Call σ (Pass (Slice × ℕ) (Slice × ℕ)) :=
  if st.2 < st.1.len then do
    let tail ← Sys.lift (st.1.rangeFrom st.2)
    match ← Sys.attempt kernel (.read fd tail.len) with
    | .ok bs =>
      if bs.val.length = 0 then pure (.done st)
      else do
        let total ← Sys.lift (uadd st.2 bs.val.length)
        pure (.next (st.1.patch st.2 bs.val, total))
    | .error e => if e = .EINTR then pure (.next st) else Sys.lift (.err e)
  else pure (.done st)

/-- `read_all`: on success the buffer as the caller finds it, and the count. -/
def readAll (kernel : Kernel σ) (fd : RawFd) (passes : ℕ) (buf : Slice) : Call σ (Slice × ℕ) :=
  Sys.loop (readAllStep kernel fd) passes (buf, 0)

namespace Step

def accepted : Step → List UInt8
  | ⟨.write _ bytes, .ok n⟩ => bytes.take n.val
  | _ => []

def taken : Step → List UInt8
  | ⟨.read _ _, .ok bs⟩ => bs.val
  | _ => []

def failure (e : Step) : Option Errno :=
  match e.reply with
  | .ok _ => none
  | .error code => some code

def atEof : Step → Bool
  | ⟨.read _ _, .ok bs⟩ => bs.val.isEmpty
  | _ => false

def tookNothing : Step → Bool
  | ⟨.write _ _, .ok n⟩ => n.val == 0
  | _ => false

end Step

def accepted (trace : List Step) : List UInt8 := trace.flatMap Step.accepted

def consumed (trace : List Step) : List UInt8 := trace.flatMap Step.taken

@[simp] theorem accepted_append (t u : List Step) : accepted (t ++ u) = accepted t ++ accepted u :=
  List.flatMap_append

@[simp] theorem consumed_append (t u : List Step) : consumed (t ++ u) = consumed t ++ consumed u :=
  List.flatMap_append

@[simp] theorem accepted_singleton (e : Step) : accepted [e] = e.accepted := by
  simp [accepted]

@[simp] theorem consumed_singleton (e : Step) : consumed [e] = e.taken := by
  simp [consumed]

def Undecided (e : Step) (moved : List UInt8) : Prop := e.failure = some .EINTR ∨ moved ≠ []

def interruptions (trace : List Step) : ℕ := trace.countP fun e => e.failure == some .EINTR

theorem length_le_of_undecided (moved : Step → List UInt8) {trace : List Step}
    (h : ∀ e ∈ trace, Undecided e (moved e)) :
    trace.length ≤ interruptions trace + (trace.flatMap moved).length := by
  induction trace with
  | nil => simp
  | cons e trace ih =>
    obtain ⟨he, hrest⟩ := List.forall_mem_cons.mp h
    have hlen := ih hrest
    rw [interruptions, List.countP_cons, ← interruptions, List.length_cons, List.flatMap_cons,
      List.length_append]
    rcases he with hintr | hmoved
    · rw [if_pos (by simpa using hintr)]
      omega
    · have hpos := List.length_pos_iff.mpr hmoved
      omega

theorem writeAllStep_ends (kernel : Kernel σ) (fd : RawFd) (buf : Slice)
    (w : World Reply Errno σ) :
    Ends (writeAllStep kernel fd buf w)
      (fun
        | .next rest, v => ∃ e : Step, v.trace = w.trace ++ [e] ∧
            e.request = .write fd buf.bytes ∧ buf.bytes ≠ [] ∧
            e.accepted ++ rest.bytes = buf.bytes ∧ Undecided e e.accepted
        | .done (), v => v = w ∧ buf.bytes = [])
      (fun code v => ∃ e : Step, v.trace = w.trace ++ [e] ∧
        e.request = .write fd buf.bytes ∧ buf.bytes ≠ [] ∧ e.accepted = [] ∧
        (e.failure = some code ∧ code ≠ .EINTR ∨ code = Errno.EIO ∧ e.tookNothing = true))
      (fun _ => False) := by
  unfold writeAllStep
  by_cases hempty : buf.len = 0
  · rw [if_pos hempty]
    exact ⟨rfl, List.length_eq_zero_iff.mp hempty⟩
  · have hne : buf.bytes ≠ [] := fun h => hempty (by rw [Slice.len, h, List.length_nil])
    rw [if_neg hempty]
    rcases hans : kernel (.write fd buf.bytes) w.state with ⟨reply, s⟩
    rw [Sys.bind_of_ok (Sys.attempt_of_reply hans)]
    cases reply with
    | ok n =>
      dsimp only
      by_cases hzero : n.val = 0
      · rw [if_pos hzero]
        exact ⟨_, rfl, rfl, hne, by simp [Step.accepted, hzero],
          Or.inr ⟨rfl, by simp [Step.tookNothing, hzero]⟩⟩
      · obtain ⟨rest, hrest, hbytes⟩ := Slice.rangeFrom_of_le (ε := Errno) (s := buf) n.property
        rw [if_neg hzero, hrest]
        refine ⟨_, rfl, rfl, hne, ?_, Or.inr ?_⟩
        · rw [hbytes]
          exact List.take_append_drop _ _
        · simp [Step.accepted, hzero, hne]
    | error code =>
      dsimp only
      by_cases hintr : code = .EINTR
      · rw [if_pos hintr]
        exact ⟨_, rfl, rfl, hne, rfl, Or.inl (congrArg some hintr)⟩
      · rw [if_neg hintr]
        exact ⟨_, rfl, rfl, hne, rfl, Or.inl ⟨rfl, hintr⟩⟩

def Orderly (fd : RawFd) (buf : Slice) (trace : List Step) : Prop :=
  ∀ pre e post, trace = pre ++ e :: post →
    e.request = .write fd (buf.bytes.drop (accepted pre).length) ∧ accepted pre ≠ buf.bytes

theorem Orderly.snoc {fd : RawFd} {buf : Slice} {trace : List Step} {e : Step} {left : List UInt8}
    (h : Orderly fd buf trace) (hleft : accepted trace ++ left = buf.bytes) (hne : left ≠ [])
    (he : e.request = .write fd left) : Orderly fd buf (trace ++ [e]) := by
  intro pre e' post hsplit
  rcases List.eq_nil_or_concat post with rfl | ⟨post', last, rfl⟩
  · obtain ⟨rfl, hlast⟩ := List.append_inj' hsplit rfl
    obtain rfl : e = e' := by simpa using hlast
    rw [he, ← hleft, List.drop_left]
    exact ⟨rfl, fun hall => hne (by simpa using hall)⟩
  · rw [List.concat_eq_append, ← List.cons_append, ← List.append_assoc] at hsplit
    exact h pre e' post' (List.append_inj' hsplit rfl).1

structure Writing (fd : RawFd) (buf : Slice) (n : ℕ) (rest : Slice) (trace : List Step) : Prop where
  split : accepted trace ++ rest.bytes = buf.bytes
  orderly : Orderly fd buf trace
  answers : trace.length = n
  undecided : ∀ e ∈ trace, Undecided e e.accepted

theorem writing_start (fd : RawFd) (buf : Slice) : Writing fd buf 0 buf [] where
  split := rfl
  orderly := fun pre e post h => by simp at h
  answers := rfl
  undecided := fun e h => by simp at h

def GaveUp (code : Errno) (trace : List Step) : Prop :=
  ∃ pre last, trace = pre ++ [last] ∧
    (last.failure = some code ∧ code ≠ .EINTR ∨ code = Errno.EIO ∧ last.tookNothing = true)

section Writing

variable {fd : RawFd} {buf rest : Slice} {n : ℕ} {trace : List Step} {e : Step}

theorem Writing.next {left : Slice} (hw : Writing fd buf n rest trace)
    (hreq : e.request = .write fd rest.bytes) (hne : rest.bytes ≠ [])
    (hsplit : e.accepted ++ left.bytes = rest.bytes) (hund : Undecided e e.accepted) :
    Writing fd buf (n + 1) left (trace ++ [e]) where
  split := by
    rw [accepted_append, accepted_singleton, List.append_assoc, hsplit, hw.split]
  orderly := hw.orderly.snoc hw.split hne hreq
  answers := by
    rw [List.length_append, hw.answers, List.length_singleton]
  undecided := List.forall_mem_append.mpr ⟨hw.undecided, by simpa using hund⟩

theorem Writing.done (hw : Writing fd buf n rest trace) (hnil : rest.bytes = []) :
    accepted trace = buf.bytes := by
  have hsplit := hw.split
  rwa [hnil, List.append_nil] at hsplit

theorem Writing.stopped (hw : Writing fd buf n rest trace)
    (hreq : e.request = .write fd rest.bytes) (hne : rest.bytes ≠ []) (hnone : e.accepted = []) :
    accepted (trace ++ [e]) <+: buf.bytes ∧ accepted (trace ++ [e]) ≠ buf.bytes ∧
      Orderly fd buf (trace ++ [e]) := by
  have hacc : accepted (trace ++ [e]) = accepted trace := by
    rw [accepted_append, accepted_singleton, hnone, List.append_nil]
  refine ⟨?_, ?_, hw.orderly.snoc hw.split hne hreq⟩
  · rw [hacc, ← hw.split]
    exact List.prefix_append _ _
  · rw [hacc, ← hw.split]
    intro hall
    exact hne (by simpa using hall)

end Writing

theorem writeAll_ends (kernel : Kernel σ) (fd : RawFd) (passes : ℕ) (buf : Slice) (s : σ) :
    Ends (writeAll kernel fd passes buf ⟨s, []⟩)
      (fun _ v => accepted v.trace = buf.bytes ∧ Orderly fd buf v.trace)
      (fun code v => accepted v.trace <+: buf.bytes ∧ accepted v.trace ≠ buf.bytes ∧
        Orderly fd buf v.trace ∧ GaveUp code v.trace)
      (fun v => ∃ rest, Writing fd buf passes rest v.trace) := by
  have hloop := Ends.loop (writeAllStep kernel fd)
    (I := fun n rest (v : World Reply Errno σ) => Writing fd buf n rest v.trace)
    (P := fun _ v => accepted v.trace = buf.bytes ∧ Orderly fd buf v.trace)
    (Q := fun code v => accepted v.trace <+: buf.bytes ∧ accepted v.trace ≠ buf.bytes ∧
      Orderly fd buf v.trace ∧ GaveUp code v.trace)
    (fun n rest w hw => ?_) passes (s := buf) (w := ⟨s, []⟩) (writing_start fd buf)
  · rw [Nat.zero_add] at hloop
    exact hloop
  · apply (writeAllStep_ends kernel fd rest w).imp _ _ (fun _ h => h)
    · intro r v hr
      cases r with
      | next left =>
        obtain ⟨e, htrace, hreq, hne, hsplit, hund⟩ := hr
        dsimp only
        rw [htrace]
        exact hw.next hreq hne hsplit hund
      | done u =>
        obtain ⟨rfl, hnil⟩ := hr
        exact ⟨hw.done hnil, hw.orderly⟩
    · intro code v hr
      obtain ⟨e, htrace, hreq, hne, hnone, hcause⟩ := hr
      obtain ⟨hpre, hpart, horderly⟩ := hw.stopped hreq hne hnone
      rw [htrace]
      exact ⟨hpre, hpart, horderly, w.trace, e, rfl, hcause⟩

/-- `write_all` moves a prefix of the buffer into the descriptor, whatever the
kernel answers: the whole of it exactly when it returns `Ok`. -/
theorem writeAll_delivers (kernel : Kernel σ) (fd : RawFd) (passes : ℕ) (buf : Slice) (s : σ)
    (r : Outcome Errno Unit) (w : World Reply Errno σ)
    (hrun : writeAll kernel fd passes buf ⟨s, []⟩ = (r, w)) :
    r ≠ .panic ∧ accepted w.trace <+: buf.bytes ∧
    (r ≠ .diverge → (r = .ok () ↔ accepted w.trace = buf.bytes)) ∧
    (∀ code, r = .err code → GaveUp code w.trace ∧ accepted w.trace ≠ buf.bytes) ∧
    Orderly fd buf w.trace ∧
    (r = .diverge → passes ≤ interruptions w.trace + buf.len) := by
  have hends := writeAll_ends kernel fd passes buf s
  rw [hrun] at hends
  cases r with
  | ok u =>
    obtain ⟨hall, horderly⟩ := hends
    refine ⟨by simp, hall ▸ List.prefix_refl _, fun _ => iff_of_true rfl hall, by simp, horderly,
      by simp⟩
  | err code =>
    obtain ⟨hpre, hpart, horderly, hcause⟩ := hends
    refine ⟨by simp, hpre, fun _ => iff_of_false (by simp) hpart, ?_, horderly, by simp⟩
    intro code' heq
    obtain rfl := Outcome.err.inj heq
    exact ⟨hcause, hpart⟩
  | panic => exact hends.elim
  | diverge =>
    obtain ⟨rest, hw⟩ := hends
    have hpre : accepted w.trace <+: buf.bytes := hw.split ▸ List.prefix_append _ _
    refine ⟨by simp, hpre, fun h => absurd rfl h, by simp, hw.orderly, fun _ => ?_⟩
    calc passes = w.trace.length := hw.answers.symm
      _ ≤ interruptions w.trace + (accepted w.trace).length := length_le_of_undecided _ hw.undecided
      _ ≤ interruptions w.trace + buf.len := Nat.add_le_add_left hpre.length_le _

def answering : Kernel (List (Except Errno ℕ))
  | .write _ bytes, .ok n :: rest => (.ok ⟨min n bytes.length, Nat.min_le_right _ _⟩, rest)
  | .write _ _, .error e :: rest => (.error e, rest)
  | _, s => (.error .EINTR, s)

def fiveBytes : Slice := ⟨[1, 2, 3, 4, 5], by decide⟩

theorem writeAll_delivers_fiveBytes :
    ∃ w, writeAll answering 1 5 fiveBytes ⟨[.ok 2, .error .EINTR, .ok 1, .ok 2], []⟩ = (.ok (), w) ∧
      accepted w.trace = [1, 2, 3, 4, 5] := by
  have hrun : (writeAll answering 1 5 fiveBytes ⟨[.ok 2, .error .EINTR, .ok 1, .ok 2], []⟩).1 =
      .ok () := by decide
  refine ⟨_, Prod.ext hrun rfl, ?_⟩
  exact ((writeAll_delivers answering 1 5 fiveBytes [.ok 2, .error .EINTR, .ok 1, .ok 2] (.ok ())
    _ (Prod.ext hrun rfl)).2.2.1 (by simp)).mp rfl

theorem readAllStep_ends (kernel : Kernel σ) (fd : RawFd) (st : Slice × ℕ)
    (w : World Reply Errno σ) :
    Ends (readAllStep kernel fd st w)
      (fun
        | .next st', v => ∃ e : Step, v.trace = w.trace ++ [e] ∧
            st.2 + e.taken.length ≤ st.1.len ∧
            st' = (st.1.patch st.2 e.taken, st.2 + e.taken.length) ∧ Undecided e e.taken ∧
            e.atEof = false
        | .done st', v => st' = st ∧ (v = w ∧ st.1.len ≤ st.2 ∨
            ∃ e : Step, v.trace = w.trace ++ [e] ∧ st.2 < st.1.len ∧ e.taken = [] ∧
              e.atEof = true))
      (fun code v => ∃ e : Step, v.trace = w.trace ++ [e] ∧ e.failure = some code ∧
        code ≠ .EINTR)
      (fun _ => False) := by
  obtain ⟨buf, total⟩ := st
  unfold readAllStep
  by_cases hroom : total < buf.len
  · obtain ⟨tail, htail, hlen⟩ := Slice.rangeFrom_room (ε := Errno) hroom.le
    rw [if_pos hroom, htail, Sys.bind_of_ok (Sys.lift_apply _ _)]
    rcases hans : kernel (.read fd tail.len) w.state with ⟨reply, s⟩
    rw [Sys.bind_of_ok (Sys.attempt_of_reply hans)]
    cases reply with
    | ok bs =>
      have hle := bs.property
      have hfits := buf.len_lt
      dsimp only
      by_cases hzero : bs.val.length = 0
      · have hnil : bs.val = [] := List.length_eq_zero_iff.mp hzero
        rw [if_pos hzero]
        exact ⟨rfl, Or.inr ⟨_, rfl, hroom, hnil, by simp [Step.atEof, hnil]⟩⟩
      · have hne : bs.val ≠ [] := fun h => hzero (by rw [h, List.length_nil])
        rw [if_neg hzero, uadd_eq_ok (by omega)]
        exact ⟨_, rfl, by simp only [Step.taken]; omega, rfl, Or.inr hne,
          by simp [Step.atEof, hne]⟩
    | error code =>
      dsimp only
      by_cases hintr : code = .EINTR
      · rw [if_pos hintr]
        exact ⟨_, rfl, hroom.le, by simp [Step.taken], Or.inl (congrArg some hintr), rfl⟩
      · rw [if_neg hintr]
        exact ⟨_, rfl, rfl, hintr⟩
  · rw [if_neg hroom]
    exact ⟨rfl, Or.inl ⟨rfl, Nat.not_lt.mp hroom⟩⟩

def ReachedEof (trace : List Step) : Prop := ∃ e ∈ trace, e.atEof = true

def Reported (code : Errno) (trace : List Step) : Prop := ∃ e ∈ trace, e.failure = some code

structure HasRead (buf : Slice) (st : Slice × ℕ) (trace : List Step) : Prop where
  filled : st = (buf.patch 0 (consumed trace), (consumed trace).length)
  fits : (consumed trace).length ≤ buf.len
  short_iff : (consumed trace).length < buf.len ↔ ReachedEof trace

structure Reading (buf : Slice) (n : ℕ) (st : Slice × ℕ) (trace : List Step) : Prop where
  filled : st = (buf.patch 0 (consumed trace), (consumed trace).length)
  fits : (consumed trace).length ≤ buf.len
  answers : trace.length = n
  undecided : ∀ e ∈ trace, Undecided e e.taken
  before_eof : ∀ e ∈ trace, e.atEof = false

theorem reading_start (buf : Slice) : Reading buf 0 (buf, 0) [] where
  filled := by simp [consumed]
  fits := by simp [consumed]
  answers := rfl
  undecided := by simp
  before_eof := by simp

section Reading

variable {buf : Slice} {st : Slice × ℕ} {n : ℕ} {trace : List Step} {e : Step}

theorem Reading.next (hr : Reading buf n st trace) (hle : st.2 + e.taken.length ≤ st.1.len)
    (hund : Undecided e e.taken) (hmore : e.atEof = false) :
    Reading buf (n + 1) (st.1.patch st.2 e.taken, st.2 + e.taken.length) (trace ++ [e]) := by
  obtain ⟨rfl, hfits, hans, hall, heof⟩ := hr
  rw [Slice.len_patch] at hle
  have hcons : consumed (trace ++ [e]) = consumed trace ++ e.taken := by
    rw [consumed_append, consumed_singleton]
  refine ⟨?_, ?_, ?_, ?_, ?_⟩
  · rw [hcons, Slice.patch_patch hle, List.length_append]
  · rw [hcons, List.length_append]
    exact hle
  · rw [List.length_append, hans, List.length_singleton]
  · exact List.forall_mem_append.mpr ⟨hall, by simpa using hund⟩
  · exact List.forall_mem_append.mpr ⟨heof, by simpa using hmore⟩

theorem Reading.full (hr : Reading buf n st trace) (hfull : st.1.len ≤ st.2) :
    HasRead buf st trace := by
  obtain ⟨rfl, hfits, -, -, heof⟩ := hr
  rw [Slice.len_patch] at hfull
  refine ⟨rfl, hfits, iff_of_false (Nat.not_lt.mpr hfull) ?_⟩
  intro h
  obtain ⟨e, he, hlast⟩ := h
  rw [heof e he] at hlast
  exact Bool.noConfusion hlast

theorem Reading.eof (hr : Reading buf n st trace) (hroom : st.2 < st.1.len)
    (hnone : e.taken = []) (hlast : e.atEof = true) : HasRead buf st (trace ++ [e]) := by
  obtain ⟨rfl, hfits, -, -, -⟩ := hr
  rw [Slice.len_patch] at hroom
  have hcons : consumed (trace ++ [e]) = consumed trace := by
    rw [consumed_append, consumed_singleton, hnone, List.append_nil]
  have heof : ReachedEof (trace ++ [e]) := ⟨e, by simp, hlast⟩
  exact ⟨by rw [hcons], by rwa [hcons], iff_of_true (by rwa [hcons]) heof⟩

end Reading

theorem readAll_ends (kernel : Kernel σ) (fd : RawFd) (passes : ℕ) (buf : Slice) (s : σ) :
    Ends (readAll kernel fd passes buf ⟨s, []⟩)
      (fun st v => HasRead buf st v.trace)
      (fun code v => code ≠ .EINTR ∧ Reported code v.trace)
      (fun v => ∃ st, Reading buf passes st v.trace) := by
  have hloop := Ends.loop (readAllStep kernel fd)
    (I := fun n st (v : World Reply Errno σ) => Reading buf n st v.trace)
    (P := fun st v => HasRead buf st v.trace)
    (Q := fun code v => code ≠ .EINTR ∧ Reported code v.trace)
    (fun n st w hw => ?_) passes (s := (buf, 0)) (w := ⟨s, []⟩) (reading_start buf)
  · rw [Nat.zero_add] at hloop
    exact hloop
  · apply (readAllStep_ends kernel fd st w).imp _ _ (fun _ h => h)
    · intro r v hr
      cases r with
      | next st' =>
        obtain ⟨e, htrace, hle, rfl, hmoved, hmore⟩ := hr
        dsimp only
        rw [htrace]
        exact hw.next hle hmoved hmore
      | done st' =>
        obtain ⟨rfl, hend⟩ := hr
        rcases hend with ⟨rfl, hfull⟩ | ⟨e, htrace, hroom, hnone, hlast⟩
        · exact hw.full hfull
        · dsimp only
          rw [htrace]
          exact hw.eof hroom hnone hlast
    · intro code v hr
      obtain ⟨e, htrace, hfail, hne⟩ := hr
      exact ⟨hne, e, by simp [htrace], hfail⟩

theorem interruptions_append (t u : List Step) :
    interruptions (t ++ u) = interruptions t + interruptions u :=
  List.countP_append

theorem Reading.length_le {buf : Slice} {st : Slice × ℕ} {n : ℕ} {trace : List Step}
    (hr : Reading buf n st trace) : trace.length ≤ interruptions trace + buf.len :=
  (length_le_of_undecided Step.taken hr.undecided).trans (Nat.add_le_add_left hr.fits _)

/-- `read_all` asks once for every interruption and every byte, and once more where
the data ends or a read fails. -/
theorem readAll_answers (kernel : Kernel σ) (fd : RawFd) (passes : ℕ) (buf : Slice) (s : σ) :
    let w := (readAll kernel fd passes buf ⟨s, []⟩).2
    w.trace.length ≤ interruptions w.trace + buf.len + 1 := by
  intro w
  let Short (v : World Reply Errno σ) : Prop := v.trace.length ≤ interruptions v.trace + buf.len + 1
  have hlast : ∀ n st (v v' : World Reply Errno σ) (e : Step), Reading buf n st v.trace →
      v'.trace = v.trace ++ [e] → Short v' := by
    intro n st v v' e hv htrace
    have hlen := hv.length_le
    change v'.trace.length ≤ _
    rw [htrace, List.length_append, List.length_singleton, interruptions_append]
    omega
  have hloop := Ends.loop (readAllStep kernel fd)
    (I := fun n st (v : World Reply Errno σ) => Reading buf n st v.trace)
    (P := fun _ v => Short v) (Q := fun _ v => Short v)
    (fun n st v hv => ?_) passes (s := (buf, 0)) (w := ⟨s, []⟩) (reading_start buf)
  · change Short (readAll kernel fd passes buf ⟨s, []⟩).2
    change Ends (readAll kernel fd passes buf ⟨s, []⟩) _ _ _ at hloop
    rcases hrun : readAll kernel fd passes buf ⟨s, []⟩ with ⟨r, v⟩
    rw [hrun] at hloop
    cases r with
    | ok st => exact hloop
    | err code => exact hloop
    | panic => exact hloop.elim
    | diverge =>
      obtain ⟨st, hv⟩ := hloop
      exact hv.length_le.trans (Nat.le_succ _)
  · apply (readAllStep_ends kernel fd st v).imp _ _ (fun _ h => h)
    · intro r v' hr
      cases r with
      | next st' =>
        obtain ⟨e, htrace, hle, rfl, hmoved, hmore⟩ := hr
        dsimp only
        rw [htrace]
        exact hv.next hle hmoved hmore
      | done st' =>
        obtain ⟨-, ⟨rfl, -⟩ | ⟨e, htrace, -⟩⟩ := hr
        · exact hv.length_le.trans (Nat.le_succ _)
        · exact hlast n st v v' e hv htrace
    · intro code v' hr
      obtain ⟨e, htrace, -⟩ := hr
      exact hlast n st v v' e hv htrace

theorem Step.failure_of_atEof {e : Step} (h : e.atEof = true) : e.failure = none := by
  obtain ⟨request, reply⟩ := e
  cases reply with
  | ok a => rfl
  | error code => cases request <;> exact Bool.noConfusion h

theorem Undecided.interrupted {e : Step} (h : Undecided e e.taken) {code : Errno}
    (hcode : e.failure = some code) : code = .EINTR := by
  obtain ⟨request, reply⟩ := e
  cases reply with
  | ok a => cases hcode
  | error code' =>
    rcases h with hintr | hmoved
    · rw [hcode] at hintr
      exact Option.some.inj hintr
    · cases request <;> exact absurd rfl hmoved

def Uninjured (trace : List Step) : Prop :=
  ∀ e ∈ trace, ∀ code, e.failure = some code → code = .EINTR

theorem Uninjured.snoc {trace : List Step} {e : Step} (h : Uninjured trace)
    (he : ∀ code, e.failure = some code → code = .EINTR) : Uninjured (trace ++ [e]) :=
  List.forall_mem_append.mpr ⟨h, by simpa using he⟩

theorem readAll_interrupted (kernel : Kernel σ) (fd : RawFd) (passes : ℕ) (buf : Slice) (s : σ) :
    Ends (readAll kernel fd passes buf ⟨s, []⟩)
      (fun _ v => Uninjured v.trace) (fun _ _ => True) (fun _ => True) := by
  have hloop := Ends.loop (readAllStep kernel fd)
    (I := fun _ _ (v : World Reply Errno σ) => Uninjured v.trace) (P := fun _ v => Uninjured v.trace)
    (Q := fun _ _ => True) (fun n st w hw => ?_) passes (n := 0) (s := (buf, 0)) (w := ⟨s, []⟩)
    (fun e he => absurd he List.not_mem_nil)
  · exact hloop.imp (fun _ _ h => h) (fun _ _ h => h) (fun _ _ => trivial)
  · apply (readAllStep_ends kernel fd st w).imp _ (fun _ _ _ => trivial) (fun _ h => h)
    intro r v hr
    cases r with
    | next st' =>
      obtain ⟨e, htrace, -, -, hund, -⟩ := hr
      dsimp only
      rw [htrace]
      exact hw.snoc fun code => hund.interrupted
    | done st' =>
      obtain ⟨-, ⟨rfl, -⟩ | ⟨e, htrace, -, -, hlast⟩⟩ := hr
      · exact hw
      · dsimp only
        rw [htrace]
        apply hw.snoc
        simp [Step.failure_of_atEof hlast]

/-- The answers come from one stream: the bytes are taken from its front, and the
end is reported only where it ends. -/
def Serves (stream : List UInt8) (trace : List Step) : Prop :=
  consumed trace <+: stream ∧
    ∀ pre e post, trace = pre ++ e :: post → e.atEof = true → consumed pre = stream

theorem Serves.consumed_eq {stream : List UInt8} {trace : List Step} (h : Serves stream trace)
    (heof : ReachedEof trace) : consumed trace = stream := by
  obtain ⟨e, he, hlast⟩ := heof
  obtain ⟨pre, post, rfl⟩ := List.append_of_mem he
  have hpre := h.2 pre e post rfl hlast
  apply h.1.eq_of_length_le
  rw [consumed_append, hpre, List.length_append]
  exact Nat.le_add_right _ _

theorem HasRead.eq_of_serves {buf : Slice} {st : Slice × ℕ} {trace : List Step}
    {stream : List UInt8} (h : HasRead buf st trace) (hs : Serves stream trace) :
    st = (buf.patch 0 (stream.take buf.len), min buf.len stream.length) := by
  have hcons : consumed trace = stream.take buf.len := by
    rcases Nat.lt_or_ge (consumed trace).length buf.len with hshort | hfull
    · have hall := hs.consumed_eq (h.short_iff.mp hshort)
      rw [← hall, List.take_of_length_le h.fits]
    · rw [← Nat.le_antisymm h.fits hfull]
      exact List.prefix_iff_eq_take.mp hs.1
  rw [h.filled, hcons, List.length_take]

/-- `read_all` fills the buffer from its front with what it takes out of the
descriptor, in order, and stops short only at the end of the file; so the result
is a function of the stream. -/
theorem readAll_fills (kernel : Kernel σ) (fd : RawFd) (passes : ℕ) (buf : Slice) (s : σ)
    (r : Outcome Errno (Slice × ℕ)) (w : World Reply Errno σ)
    (hrun : readAll kernel fd passes buf ⟨s, []⟩ = (r, w)) :
    r ≠ .panic ∧
    (∀ buf' t, r = .ok (buf', t) →
      t = (consumed w.trace).length ∧ t ≤ buf.len ∧ buf'.bytes.take t = consumed w.trace ∧
      buf'.bytes.drop t = buf.bytes.drop t ∧ (t < buf.len ↔ ReachedEof w.trace)) ∧
    (∀ code, r = .err code → code ≠ .EINTR ∧ Reported code w.trace) ∧
    (r = .diverge → passes ≤ interruptions w.trace + buf.len) ∧
    (∀ stream buf' t, r = .ok (buf', t) → Serves stream w.trace →
      t = min buf.len stream.length ∧ buf' = buf.patch 0 (stream.take buf.len)) ∧
    (∀ (σ' : Type) (kernel' : Kernel σ') (fd' : RawFd) (passes' : ℕ) (s' : σ')
      (w' : World Reply Errno σ') (stream : List UInt8) (st st' : Slice × ℕ),
      readAll kernel' fd' passes' buf ⟨s', []⟩ = (.ok st', w') → r = .ok st →
      Serves stream w.trace → Serves stream w'.trace → st = st') := by
  have hends := readAll_ends kernel fd passes buf s
  rw [hrun] at hends
  cases r with
  | ok st =>
    refine ⟨by simp, ?_, by simp, by simp, ?_, ?_⟩
    · intro buf' t heq
      obtain rfl := Outcome.ok.inj heq
      obtain ⟨rfl, rfl⟩ := Prod.mk.inj hends.filled
      rw [Slice.bytes_patch_zero hends.fits]
      exact ⟨rfl, hends.fits, List.take_left, List.drop_left, hends.short_iff⟩
    · intro stream buf' t heq hserves
      obtain rfl := Outcome.ok.inj heq
      obtain ⟨rfl, rfl⟩ := Prod.mk.inj (hends.eq_of_serves hserves)
      exact ⟨rfl, rfl⟩
    · intro σ' kernel' fd' passes' s' w' stream st₁ st₂ hrun' heq hserves hserves'
      obtain rfl := Outcome.ok.inj heq
      have hends' := readAll_ends kernel' fd' passes' buf s'
      rw [hrun'] at hends'
      rw [hends.eq_of_serves hserves, HasRead.eq_of_serves hends' hserves']
  | err code =>
    refine ⟨by simp, by simp, ?_, by simp, by simp, by simp⟩
    intro code' heq
    obtain rfl := Outcome.err.inj heq
    exact hends
  | panic => exact hends.elim
  | diverge =>
    obtain ⟨st, hw⟩ := hends
    refine ⟨by simp, by simp, by simp, fun _ => ?_, by simp, by simp⟩
    exact hw.answers.ge.trans hw.length_le

/-- A kernel that serves reads from a stream, in chunks of the given sizes, with
an interruption for `none`. -/
def serving : Kernel (List UInt8 × List (Option ℕ))
  | .read _ len, (stream, some k :: sizes) =>
    (.ok ⟨stream.take (min k len), (List.length_take_le _ _).trans (Nat.min_le_right _ _)⟩,
      (stream.drop (min k len), sizes))
  | _, (stream, sizes) => (.error .EINTR, (stream, sizes.tail))

def sevenZeros : Slice := ⟨[0, 0, 0, 0, 0, 0, 0], by decide⟩

theorem readAll_fills_sevenZeros :
    ∃ buf' w, readAll serving 0 4 sevenZeros
        ⟨([1, 2, 3, 4, 5], [some 2, none, some 9, some 1]), []⟩ = (.ok (buf', 5), w) ∧
      buf'.bytes.take 5 = consumed w.trace ∧ ReachedEof w.trace := by
  have hrun : ((readAll serving 0 4 sevenZeros
      ⟨([1, 2, 3, 4, 5], [some 2, none, some 9, some 1]), []⟩).1).map Prod.snd = .ok 5 := by decide
  obtain ⟨⟨buf', t⟩, hok, ht⟩ := map_eq_ok.mp hrun
  dsimp only at ht
  subst ht
  have hread := (readAll_fills serving 0 4 sevenZeros _ _ _ (Prod.ext hok rfl)).2.1 buf' 5 rfl
  exact ⟨buf', _, Prod.ext hok rfl, hread.2.2.1, hread.2.2.2.2.mp (by decide)⟩

end RustyLibc.Fd
