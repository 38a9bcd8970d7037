import RustyLibc.InotifyEvents
import RustyLibc.RecordQueue
import RustyLibc.SyscallReturn

/-!
# Watching files (`inotify.rs`)

An inotify instance made with `IN_NONBLOCK`, as inotify(7) describes it. What
happens to the watched files is queued; a repetition of the last unread event
may be dropped, and when the queue is full one `IN_Q_OVERFLOW` event is queued
and everything else dropped. A read takes as many whole events as fit, fails
with `EINVAL` if not even the first does and with `EAGAIN` if there is none, and
`inotify_events` parses the filled part of the buffer. Reads, with buffers of
any size, and events come in any order.

`Watched` says once what a run can do, with one constructor for each way a step
ends. What is known of whole runs are inductions over it.
-/

namespace RustyLibc.Inotify
open Outcome ByteOrder RecordStream RecordQueue Linux

def inQOverflow : UInt32 := 0x4000

def overflowEvent : Event := ⟨-1, inQOverflow, 0, .absent, NameField.absent_fits⟩

/-- `max_queued_events`, and which repetitions are dropped. -/
structure WatchKernel where
  limit : ℕ
  coalesces : Event → Bool

variable (e : Endian) (K : WatchKernel)

def WatchKernel.queued (queue : List Event) (x : Event) : List Event :=
  if K.limit ≤ queue.length then
    if overflowEvent.parsed ∈ queue.map Event.parsed then queue else queue ++ [overflowEvent]
  else if K.coalesces x = true ∧ (queue.map Event.parsed).getLast? = some x.parsed then queue
  else queue ++ [x]

def nextEvents (queue : List Event) (room : ℕ) : List Event :=
  batch (Event.encode e) queue.length room queue

def sysRead (queue : List Event) (buf : Slice) : BitVec 64 × Slice × List Event :=
  if queue.isEmpty then (SysErr.EAGAIN.raw, buf, queue)
  else if (nextEvents e queue buf.len).isEmpty then (SysErr.EINVAL.raw, buf, queue)
  else
    let bytes := (nextEvents e queue buf.len).flatMap (Event.encode e)
    (countRet bytes.length, buf.patch 0 bytes, queue.drop (nextEvents e queue buf.len).length)

def read (queue : List Event) (buf : Slice) : Except Errno ℕ × Slice × List Event :=
  let (ret, buf, queue) := sysRead e queue buf
  ((fromRet ret).map BitVec.toNat, buf, queue)

def filledEvents (buf : Slice) (n : ℕ) : Outcome Errno (List InotifyEvent) :=
  if n ≤ buf.len then
    ofNever (drain (InotifyEvents.next e) (n + 1) (inotifyEvents (buf.upTo n)))
  else .panic

def readEvents (queue : List Event) (buf : Slice) :
    Outcome Errno (List InotifyEvent) × List Event :=
  let (result, buf, queue) := read e queue buf
  match result with
  | .error code => (.err code, queue)
  | .ok n => (filledEvents e buf n, queue)

inductive Happening where
  | event (x : Event)
  | read (buf : Slice)

def watch (queue : List Event) :
    List Happening → List (Outcome Errno (List InotifyEvent)) × List Event
  | [] => ([], queue)
  | .event x :: rest => watch (K.queued queue x) rest
  | .read buf :: rest =>
    let (result, queue) := readEvents e queue buf
    let (results, queue) := watch queue rest
    (result :: results, queue)

def eventsOf (results : List (Outcome Errno (List InotifyEvent))) : List InotifyEvent :=
  results.flatMap fun
    | .ok events => events
    | _ => []

def happened : List Happening → List InotifyEvent
  | [] => []
  | .event x :: rest => x.parsed :: happened rest
  | .read _ :: rest => happened rest

theorem filledEvents_encoded (xs : List Event) (buf : Slice)
    (h : (xs.flatMap (Event.encode e)).length ≤ buf.len) :
    filledEvents e (buf.patch 0 (xs.flatMap (Event.encode e)))
      (xs.flatMap (Event.encode e)).length = .ok (xs.map Event.parsed) := by
  set bytes := xs.flatMap (Event.encode e) with hbytes
  rw [filledEvents, Slice.len_patch, if_pos h, drain_inotifyEvents, Slice.bytes_upTo_patch h,
    hbytes, Framing.drain_encoded (fun x => x.isRecord e) xs (Nat.lt_succ_self _), ofNever]
  exact congrArg Outcome.ok (List.map_congr_left fun x _ => x.eventOf_encode e)

theorem readEvents_cases (queue : List Event) (buf : Slice) :
    (queue = [] ∧ readEvents e queue buf = (.err .EAGAIN, queue)) ∨
    (queue ≠ [] ∧ ¬ FirstFits (Event.encode e) buf.len queue ∧
      readEvents e queue buf = (.err .EINVAL, queue)) ∨
    (FirstFits (Event.encode e) buf.len queue ∧
      readEvents e queue buf = (.ok ((nextEvents e queue buf.len).map Event.parsed),
        queue.drop (nextEvents e queue buf.len).length)) := by
  by_cases hnil : queue = []
  · refine Or.inl ⟨hnil, ?_⟩
    rw [readEvents, read, sysRead, if_pos (List.isEmpty_iff.mpr hnil)]
    dsimp only
    rw [fromRet_raw]
    rfl
  right
  by_cases hfits : FirstFits (Event.encode e) buf.len queue
  · have hroom : ((nextEvents e queue buf.len).flatMap (Event.encode e)).length ≤ buf.len :=
      length_batch_le
    have hsmall := hroom.trans_lt buf.len_lt
    have hsome : nextEvents e queue buf.len ≠ [] := batch_ne_nil hfits
    refine Or.inr ⟨hfits, ?_⟩
    rw [readEvents, read, sysRead, if_neg (by simpa using hnil), if_neg (by simpa using hsome)]
    dsimp only
    rw [fromRet_countRet hsmall]
    simp only [Except.map, toNat_countRet hsmall, filledEvents_encoded e _ buf hroom]
  · have hnone : nextEvents e queue buf.len = [] := batch_eq_nil hfits
    refine Or.inl ⟨hnil, hfits, ?_⟩
    rw [readEvents, read, sysRead, if_neg (by simpa using hnil),
      if_pos (List.isEmpty_iff.mpr hnone)]
    dsimp only
    rw [fromRet_raw]
    rfl

/-- A run from the queue `queue`: the results of its reads, and what is queued in
the end. -/
inductive Watched : List Event → List Happening → List (Outcome Errno (List InotifyEvent)) →
    List Event → Prop
  | stop {queue : List Event} : Watched queue [] [] queue
  | event {queue left : List Event} {hs : List Happening}
      {results : List (Outcome Errno (List InotifyEvent))} (x : Event)
      (rest : Watched (K.queued queue x) hs results left) :
      Watched queue (.event x :: hs) results left
  | idle {left : List Event} {buf : Slice} {hs : List Happening}
      {results : List (Outcome Errno (List InotifyEvent))} (rest : Watched [] hs results left) :
      Watched [] (.read buf :: hs) (.err .EAGAIN :: results) left
  | small {x : Event} {queue left : List Event} {buf : Slice} {hs : List Happening}
      {results : List (Outcome Errno (List InotifyEvent))} (big : buf.len < (x.encode e).length)
      (rest : Watched (x :: queue) hs results left) :
      Watched (x :: queue) (.read buf :: hs) (.err .EINVAL :: results) left
  | brought {queue left : List Event} {buf : Slice} {hs : List Happening}
      {results : List (Outcome Errno (List InotifyEvent))} (xs : List Event) (some : xs ≠ [])
      (room : (xs.flatMap (Event.encode e)).length ≤ buf.len)
      (most : ∀ y rest, queue = y :: rest →
        buf.len < ((xs ++ [y]).flatMap (Event.encode e)).length)
      (rest : Watched queue hs results left) :
      Watched (xs ++ queue) (.read buf :: hs) (.ok (xs.map Event.parsed) :: results) left

theorem watch_watched (queue : List Event) (hs : List Happening) :
    Watched e K queue hs (watch e K queue hs).1 (watch e K queue hs).2 := by
  induction hs generalizing queue with
  | nil => exact .stop
  | cons step hs ih =>
    cases step with
    | event x => exact .event x (ih (K.queued queue x))
    | read buf =>
      have hrest := ih (readEvents e queue buf).2
      change Watched e K queue (.read buf :: hs)
        ((readEvents e queue buf).1 :: (watch e K (readEvents e queue buf).2 hs).1)
        (watch e K (readEvents e queue buf).2 hs).2
      rcases readEvents_cases e queue buf with ⟨rfl, hrun⟩ | ⟨hne, hbig, hrun⟩ | ⟨hfits, hrun⟩
      · rw [hrun] at hrest ⊢
        exact .idle hrest
      · rw [hrun] at hrest ⊢
        obtain ⟨x, rest, rfl⟩ := List.exists_cons_of_ne_nil hne
        have hlen : buf.len < (x.encode e).length := by
          by_contra hle
          exact hbig ⟨x, rest, rfl, Nat.not_lt.mp hle⟩
        exact .small hlen hrest
      · rw [hrun] at hrest ⊢
        have hsplit : nextEvents e queue buf.len ++
            queue.drop (nextEvents e queue buf.len).length = queue := batch_append_drop
        have hmost : ∀ y rest, queue.drop (nextEvents e queue buf.len).length = y :: rest →
            buf.len < ((nextEvents e queue buf.len ++ [y]).flatMap (Event.encode e)).length := by
          intro y rest hdrop
          rw [hdrop] at hsplit
          exact batch_all_most hsplit.symm
        have hstep := Watched.brought (nextEvents e queue buf.len) (batch_ne_nil hfits)
          length_batch_le hmost hrest
        rw [hsplit] at hstep
        exact hstep

/-- `log` reports `events`: nothing in it is made up, told twice or out of order,
and unless it says that the queue has overflowed, only repetitions are missing. -/
structure Reports (log events : List InotifyEvent) : Prop where
  sublist : (log.filter (· ≠ overflowEvent.parsed)).Sublist events
  whole : overflowEvent.parsed ∉ log → Repeats log events

theorem reports_queued {seen events : List InotifyEvent} {queue : List Event}
    (h : Reports (seen ++ queue.map Event.parsed) events) (x : Event) :
    Reports (seen ++ (K.queued queue x).map Event.parsed) (events ++ [x.parsed]) := by
  have hlonger : events.Sublist (events ++ [x.parsed]) := List.sublist_append_left _ _
  unfold WatchKernel.queued
  split_ifs with hfull hold hsame
  · exact ⟨h.sublist.trans hlonger, fun hno => absurd (List.mem_append_right seen hold) hno⟩
  · rw [List.map_append, List.map_singleton, ← List.append_assoc]
    refine ⟨?_, fun hno => absurd (List.mem_append_right _ List.mem_cons_self) hno⟩
    have hmark : [overflowEvent.parsed].filter (· ≠ overflowEvent.parsed) = [] := by simp
    rw [List.filter_append, hmark, List.append_nil]
    exact h.sublist.trans hlonger
  · refine ⟨h.sublist.trans hlonger, fun hno => ?_⟩
    have hlast := h.whole hno
    obtain ⟨front, hfront⟩ := List.getLast?_eq_some_iff.mp hsame.2
    rw [hfront, ← List.append_assoc] at hlast ⊢
    exact hlast.again x.parsed
  · rw [List.map_append, List.map_singleton, ← List.append_assoc]
    refine ⟨?_, fun hno => ?_⟩
    · rw [List.filter_append]
      exact h.sublist.append List.filter_sublist
    · exact (h.whole fun hmem => hno (List.mem_append_left _ hmem)).new x.parsed

section Watched

variable {e K} {queue left : List Event} {hs : List Happening}
  {results : List (Outcome Errno (List InotifyEvent))} {seen events : List InotifyEvent}

theorem eventsOf_cons (r : Outcome Errno (List InotifyEvent))
    (results : List (Outcome Errno (List InotifyEvent))) :
    eventsOf (r :: results) = eventsOf [r] ++ eventsOf results := by
  simp [eventsOf]

theorem Watched.reports (h : Watched e K queue hs results left)
    (hseen : Reports (seen ++ queue.map Event.parsed) events) :
    Reports (seen ++ eventsOf results ++ left.map Event.parsed) (events ++ happened hs) := by
  induction h generalizing seen events with
  | stop => simpa [eventsOf, happened] using hseen
  | event x rest ih =>
    have hlater := ih (reports_queued K hseen x)
    rwa [List.append_assoc events, List.singleton_append] at hlater
  | idle rest ih => exact ih hseen
  | small big rest ih => exact ih hseen
  | brought xs some room most rest ih =>
    rw [List.map_append, ← List.append_assoc] at hseen
    rw [eventsOf_cons, ← List.append_assoc]
    have hbrought : eventsOf [.ok (xs.map Event.parsed)] = xs.map Event.parsed := by
      simp [eventsOf]
    rw [hbrought]
    exact ih hseen

end Watched

theorem readEvents_all (queue : List Event) {buf : Slice}
    (hroom : (queue.flatMap (Event.encode e)).length ≤ buf.len) :
    (readEvents e queue buf).2 = [] := by
  have hall : nextEvents e queue buf.len = queue := batch_all hroom
  rcases readEvents_cases e queue buf with ⟨hnil, hrun⟩ | ⟨hne, hbig, -⟩ | ⟨-, hrun⟩
  · rw [hrun, hnil]
  · exact absurd (hall ▸ batch_eq_nil hbig) hne
  · rw [hrun, hall, List.drop_length]

/-- Whatever happens to the watched files and however they are read: each read
takes the events in front, as many as fit, and fails exactly if there are none or
if the first is larger than its buffer. What has been read and what is still
queued reports what happened, in order and without inventions, complete up to
repetitions unless an `IN_Q_OVERFLOW` event says otherwise, and a read with room
for all that is queued leaves nothing unread. -/
theorem watch_reported (hs : List Happening) :
    let run := watch e K [] hs
    Watched e K [] hs run.1 run.2 ∧
      Reports (eventsOf run.1 ++ run.2.map Event.parsed) (happened hs) ∧
      ∀ buf : Slice, (run.2.flatMap (Event.encode e)).length ≤ buf.len →
        (readEvents e run.2 buf).2 = [] ∧
          Reports (eventsOf run.1 ++ eventsOf [(readEvents e run.2 buf).1]) (happened hs) := by
  intro run
  have hwatched : Watched e K [] hs run.1 run.2 := watch_watched e K [] hs
  have hstart : Reports ([] ++ ([] : List Event).map Event.parsed) [] := ⟨.refl [], fun _ => .nil⟩
  have hreports : Reports (eventsOf run.1 ++ run.2.map Event.parsed) (happened hs) := by
    simpa using hwatched.reports hstart
  refine ⟨hwatched, hreports, fun buf hroom => ?_⟩
  have hlast : Watched e K run.2 [.read buf] [(readEvents e run.2 buf).1]
      (readEvents e run.2 buf).2 := watch_watched e K run.2 [.read buf]
  have hread := hlast.reports hreports
  rw [readEvents_all e run.2 hroom] at hread ⊢
  refine ⟨rfl, ?_⟩
  simpa [happened] using hread

end RustyLibc.Inotify
