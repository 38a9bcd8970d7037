import Mathlib.Data.List.Basic
import RustyLibc.StructLayout
import RustyLibc.SyscallReturn
import RustyLibc.TimeMillis

/-!
# Waiting for many descriptors (`epoll.rs`)

An epoll instance and the descriptors registered with it. The kernel follows
epoll(7): a descriptor is put on the ready list when it is registered, changed or
becomes ready, a wait takes descriptors from the list, and those registered neither
edge-triggered nor one-shot go back to its end while they are ready. A one-shot
registration is spent by the first report and reports nothing until it is changed.
Descriptors stay open. What `poll` reports is the measure: a wait reports what
`poll` would, which looks at each descriptor by itself.

`EpollEvent` is `repr(C, packed)` on x86_64 and `repr(C)` on aarch64, where four
bytes of padding follow `events` that nobody writes; `pad` is what they hold in the
caller's memory. The kernel finds the members and the entries of an array where
`linux/eventpoll.h` puts them, and it writes the members one by one. A reason of
its own to refuse a call, such as its rules for `EPOLLEXCLUSIVE`, is a parameter of
`sysEpollCtl`.
-/

namespace RustyLibc.Epoll
open Outcome ByteOrder StructLayout Linux Time

variable (e : Endian)

inductive Arch where
  | x86_64
  | aarch64

structure EpollEvent where
  events : BitVec 32
  data : BitVec 64
  deriving DecidableEq, Repr

def Arch.packed : Arch → Bool
  | .x86_64 => true
  | .aarch64 => false

def alignUp (n : ℕ) : ℕ := (n + 7) / 8 * 8

def Arch.dataOffset (arch : Arch) : ℕ := if arch.packed then 4 else alignUp 4

def Arch.size (arch : Arch) : ℕ :=
  if arch.packed then arch.dataOffset + 8 else alignUp (arch.dataOffset + 8)

def EpollEvent.image (arch : Arch) (pad : ℕ) (ev : EpollEvent) : List UInt8 :=
  StructLayout.image e
    [⟨4, ev.events.toNat⟩, ⟨arch.dataOffset - 4, pad⟩, ⟨8, ev.data.toNat⟩]

def EpollEvent.ofBytes (arch : Arch) (bytes : List UInt8) : EpollEvent where
  events := .ofNat 32 (fieldAt e bytes 0 4)
  data := .ofNat 64 (fieldAt e bytes arch.dataOffset 8)

def readEvents (arch : Arch) : ℕ → List UInt8 → List EpollEvent
  | 0, _ => []
  | n + 1, bytes => .ofBytes e arch (bytes.take arch.size) :: readEvents arch n (bytes.drop arch.size)

structure Events (arch : Arch) where
  len : ℕ
  bytes : List UInt8
  fits : bytes.length = len * arch.size

def Arch.kernelSize : Arch → ℕ
  | .x86_64 => 12
  | .aarch64 => 16

def Arch.kernelData : Arch → ℕ
  | .x86_64 => 4
  | .aarch64 => 8

def kernelGet (arch : Arch) (bytes : List UInt8) : EpollEvent where
  events := .ofNat 32 (fieldAt e bytes 0 4)
  data := .ofNat 64 (fieldAt e bytes arch.kernelData 8)

def kernelPut (arch : Arch) (bytes : List UInt8) (ev : EpollEvent) : List UInt8 :=
  putField e (putField e bytes 0 4 ev.events.toNat) arch.kernelData 8 ev.data.toNat

def putEvents (arch : Arch) : List EpollEvent → List UInt8 → List UInt8
  | [], bytes => bytes
  | ev :: out, bytes =>
    kernelPut e arch (bytes.take arch.kernelSize) ev ++
      putEvents arch out (bytes.drop arch.kernelSize)

variable {arch : Arch}

theorem dataOffset_eq : arch.dataOffset = arch.kernelData := by
  cases arch with
  | x86_64 => rfl
  | aarch64 => rfl

theorem size_eq : arch.size = arch.kernelSize := by
  cases arch with
  | x86_64 => rfl
  | aarch64 => rfl

theorem kernelGet_image (pad : ℕ) (ev : EpollEvent) :
    kernelGet e arch (ev.image e arch pad) = ev := by
  have hevents : fieldAt e (ev.image e arch pad) 0 4 = ev.events.toNat := by
    cases arch with
    | x86_64 => exact fieldAt_getElem e 0 rfl rfl ev.events.isLt
    | aarch64 => exact fieldAt_getElem e 0 rfl rfl ev.events.isLt
  have hdata : fieldAt e (ev.image e arch pad) arch.kernelData 8 = ev.data.toNat := by
    cases arch with
    | x86_64 => exact fieldAt_getElem e 2 rfl rfl ev.data.isLt
    | aarch64 => exact fieldAt_getElem e 2 rfl rfl ev.data.isLt
  simp only [kernelGet, hevents, hdata, BitVec.ofNat_toNat, BitVec.setWidth_eq]

theorem kernelData_le : 4 ≤ arch.kernelData ∧ arch.kernelData + 8 ≤ arch.kernelSize := by
  cases arch with
  | x86_64 => decide
  | aarch64 => decide

theorem length_kernelPut {bytes : List UInt8} (h : bytes.length = arch.kernelSize)
    (ev : EpollEvent) : (kernelPut e arch bytes ev).length = arch.kernelSize := by
  obtain ⟨hevents, hdata⟩ := @kernelData_le arch
  have hfirst : (putField e bytes 0 4 ev.events.toNat).length = arch.kernelSize := by
    rw [length_putField e _ (by omega), h]
  rw [kernelPut, length_putField e _ (by omega), hfirst]

theorem ofBytes_kernelPut {bytes : List UInt8} (h : bytes.length = arch.kernelSize)
    (ev : EpollEvent) : EpollEvent.ofBytes e arch (kernelPut e arch bytes ev) = ev := by
  obtain ⟨hle, hroom⟩ := @kernelData_le arch
  have hfirst : (putField e bytes 0 4 ev.events.toNat).length = arch.kernelSize := by
    rw [length_putField e _ (by omega), h]
  have hevents : fieldAt e (kernelPut e arch bytes ev) 0 4 = ev.events.toNat := by
    rw [kernelPut, fieldAt_putField_before e _ hle (by omega),
      fieldAt_putField e (by omega) ev.events.isLt]
  have hdata : fieldAt e (kernelPut e arch bytes ev) arch.dataOffset 8 = ev.data.toNat := by
    rw [dataOffset_eq, kernelPut, fieldAt_putField e (by omega) ev.data.isLt]
  simp only [EpollEvent.ofBytes, hevents, hdata, BitVec.ofNat_toNat, BitVec.setWidth_eq]

theorem readEvents_putEvents {out : List EpollEvent} {bytes : List UInt8}
    (h : out.length * arch.kernelSize ≤ bytes.length) :
    readEvents e arch out.length (putEvents e arch out bytes) = out := by
  induction out generalizing bytes with
  | nil => rfl
  | cons ev out ih =>
    rw [List.length_cons, Nat.succ_mul] at h
    have hentry : (bytes.take arch.kernelSize).length = arch.kernelSize :=
      List.length_take_of_le (by omega)
    have hput : (kernelPut e arch (bytes.take arch.kernelSize) ev).length = arch.size := by
      rw [length_kernelPut e hentry, size_eq]
    rw [List.length_cons, readEvents, putEvents, List.take_left' hput, List.drop_left' hput,
      ofBytes_kernelPut e hentry, ih (by rw [List.length_drop]; omega)]

def pollErr : BitVec 16 := 0x008
def pollHup : BitVec 16 := 0x010

def PollFd.new (fd : BitVec 32) (events : BitVec 16) : PollFd := ⟨fd, events, 0⟩

abbrev Levels := BitVec 32 → BitVec 16

def sysPoll (level : Levels) (p : PollFd) : PollFd :=
  { p with revents := if p.fd.msb then 0 else level p.fd &&& (p.events ||| pollErr ||| pollHup) }

/-- What `poll` reports of a descriptor if it is asked for the events of `ev`. -/
def polled (level : Levels) (fd : BitVec 32) (ev : EpollEvent) : BitVec 16 :=
  (sysPoll level (PollFd.new fd (ev.events.setWidth 16))).revents

def epollCtlAdd : BitVec 32 := 1
def epollCtlDel : BitVec 32 := 2
def epollCtlMod : BitVec 32 := 3

def epollErr : BitVec 32 := 0x008
def epollHup : BitVec 32 := 0x010

def EpollEvent.isEdge (ev : EpollEvent) : Bool := ev.events.getLsbD 31

/-- `EPOLLONESHOT`, of which `epoll.rs` has no constant; a caller may pass it. -/
def EpollEvent.isOneShot (ev : EpollEvent) : Bool := ev.events.getLsbD 30

structure Registration where
  event : EpollEvent
  spent : Bool

def Registration.told (r : Registration) : Registration := ⟨r.event, r.spent || r.event.isOneShot⟩

abbrev Interest := BitVec 32 → Option Registration

def Interest.tell (interest : Interest) (reported : List (BitVec 32)) : Interest := fun fd =>
  if reported.contains fd then (interest fd).map Registration.told else interest fd

structure Instance where
  interest : Interest
  ready : List (BitVec 32)

def Instance.fired (s : Instance) (level : Levels) (fd : BitVec 32) : BitVec 32 :=
  match s.interest fd with
  | none => 0
  | some r =>
    if r.spent then 0 else (level fd).setWidth 32 &&& (r.event.events ||| epollErr ||| epollHup)

def Instance.wake (s : Instance) (level : Levels) (fd : BitVec 32) : Instance :=
  if s.fired level fd ≠ 0 ∧ s.ready.contains fd = false then
    { s with ready := s.ready ++ [fd] }
  else s

def Instance.watch (s : Instance) (level : Levels) (fd : BitVec 32) (ev : EpollEvent) : Instance :=
  Instance.wake { s with interest := Function.update s.interest fd (some ⟨ev, false⟩) } level fd

def Instance.forget (s : Instance) (fd : BitVec 32) : Instance :=
  ⟨Function.update s.interest fd none, s.ready.filter (· ≠ fd)⟩

def sysEpollCtl (arch : Arch) (level : Levels) (refuse : Option SysErr) (s : Instance)
    (op fd : BitVec 32) (event : Option (List UInt8)) : BitVec 64 × Instance :=
  if op ≠ epollCtlDel ∧ event.isNone then (SysErr.EFAULT.raw, s)
  else match refuse with
    | some reason => (reason.raw, s)
    | none =>
      let ev := (event.map (kernelGet e arch)).getD ⟨0, 0⟩
      if fd.msb then (SysErr.EBADF.raw, s)
      else if op = epollCtlAdd then
        if (s.interest fd).isSome then (SysErr.EEXIST.raw, s) else (0, s.watch level fd ev)
      else if op = epollCtlMod then
        if (s.interest fd).isSome then (0, s.watch level fd ev) else (SysErr.ENOENT.raw, s)
      else if op = epollCtlDel then
        if (s.interest fd).isSome then (0, s.forget fd) else (SysErr.ENOENT.raw, s)
      else (SysErr.EINVAL.raw, s)

/-- The descriptors reported, and those the scan did not come to. -/
def Instance.scan (s : Instance) (level : Levels) :
    ℕ → List (BitVec 32) → List (BitVec 32) × List (BitVec 32)
  | _, [] => ([], [])
  | 0, fd :: rest => ([], fd :: rest)
  | n + 1, fd :: rest =>
    if s.fired level fd = 0 then s.scan level (n + 1) rest
    else
      let (reported, left) := s.scan level n rest
      (fd :: reported, left)

def Instance.report (s : Instance) (level : Levels) (fd : BitVec 32) : Option EpollEvent :=
  (s.interest fd).map fun r => ⟨s.fired level fd, r.event.data⟩

def Instance.requeues (s : Instance) (fd : BitVec 32) : Bool :=
  ((s.interest fd).map fun r => !r.event.isEdge && !r.event.isOneShot).getD false

def maxevents (arch : Arch) (len : ℕ) : Option ℕ :=
  let n := (BitVec.ofNat 32 len).toInt
  if n ≤ 0 ∨ (2 ^ 31 - 1) / arch.kernelSize < n.toNat then none else some n.toNat

def Instance.taken (s : Instance) (level : Levels) (arch : Arch) (len : ℕ) : List (BitVec 32) :=
  match maxevents arch len with
  | none => []
  | some n => (s.scan level n s.ready).1

/-- epoll_wait(2), at the end of its timeout or interrupted by a signal if there is
nothing to report. -/
def sysEpollWait (arch : Arch) (level : Levels) (s : Instance) (bytes : List UInt8) (len : ℕ)
    (interrupted : Bool) : BitVec 64 × List UInt8 × Instance :=
  match maxevents arch len with
  | none => (SysErr.EINVAL.raw, bytes, s)
  | some n =>
    let (reported, left) := s.scan level n s.ready
    let out := reported.filterMap (s.report level)
    let s' := ⟨s.interest.tell reported, left ++ reported.filter s.requeues⟩
    if out.isEmpty && interrupted then (SysErr.EINTR.raw, bytes, s')
    else (countRet out.length, putEvents e arch out bytes, s')

def epollCtl (arch : Arch) (level : Levels) (refuse : Option SysErr) (s : Instance)
    (op fd : BitVec 32) (event : Option EpollEvent) (pad : ℕ) : Except Errno Unit × Instance :=
  let eventPtr := event.map (EpollEvent.image e arch pad)
  let (ret, s) := sysEpollCtl e arch level refuse s op fd eventPtr
  (unitRet ret, s)

def epollWait (level : Levels) (s : Instance) (events : Events arch) (interrupted : Bool) :
    Except Errno ℕ × List UInt8 × Instance :=
  let (ret, bytes, s) := sysEpollWait e arch level s events.bytes events.len interrupted
  ((fromRet ret).map BitVec.toNat, bytes, s)

def waitEvents (level : Levels) (s : Instance) (events : Events arch) (interrupted : Bool) :
    Outcome Errno (List EpollEvent) × Instance :=
  match epollWait e level s events interrupted with
  | (.error code, _, s) => (.err code, s)
  | (.ok n, bytes, s) => (if n ≤ events.len then .ok (readEvents e arch n bytes) else .panic, s)

inductive Happening (arch : Arch) where
  | ctl (refuse : Option SysErr) (op fd : BitVec 32) (event : Option EpollEvent) (pad : ℕ)
  | becomes (fd : BitVec 32) (mask : BitVec 16)
  | wait (events : Events arch) (interrupted : Bool)

/-- `wanted` is what the caller has registered, going by the results of its calls,
and which of its one-shot registrations have been reported. -/
structure World where
  inst : Instance
  level : Levels
  wanted : Interest

def World.start : World := ⟨⟨fun _ => none, []⟩, fun _ => 0, fun _ => none⟩

def World.step (w : World) : Happening arch → World
  | .ctl refuse op fd event pad =>
    match epollCtl e arch w.level refuse w.inst op fd event pad with
    | (.error _, s) => { w with inst := s }
    | (.ok _, s) =>
      { w with
        inst := s
        wanted := Function.update w.wanted fd
          (if op = epollCtlDel then none else event.map (⟨·, false⟩)) }
  | .becomes fd mask =>
    let level := Function.update w.level fd mask
    { w with inst := w.inst.wake level fd, level }
  | .wait events interrupted =>
    { w with
      inst := (waitEvents e w.level w.inst events interrupted).2
      wanted := w.wanted.tell (w.inst.taken w.level arch events.len) }

def World.run (w : World) (hs : List (Happening arch)) : World := hs.foldl (World.step e) w

theorem fired_spent {s : Instance} {fd : BitVec 32} {r : Registration}
    (h : s.interest fd = some r) (hspent : r.spent = true) (level : Levels) :
    s.fired level fd = 0 := by
  rw [Instance.fired, h]
  exact if_pos hspent

theorem fired_some {s : Instance} {fd : BitVec 32} {r : Registration} (h : s.interest fd = some r)
    (hspent : r.spent = false) (hfd : fd.msb = false) (level : Levels) :
    s.fired level fd = (polled level fd r.event).setWidth 32 := by
  have hpolled : polled level fd r.event =
      level fd &&& (r.event.events.setWidth 16 ||| pollErr ||| pollHup) :=
    if_neg (show ¬ fd.msb = true by rw [hfd]; exact Bool.false_ne_true)
  have herr : pollErr.setWidth 32 = epollErr := by decide
  have hhup : pollHup.setWidth 32 = epollHup := by decide
  rw [Instance.fired, h, hpolled, ← herr, ← hhup]
  dsimp only
  rw [hspent, if_neg Bool.false_ne_true]
  -- no event above the sixteen bits of `poll` is ever ready
  apply BitVec.eq_of_getLsbD_eq
  intro i hi
  by_cases hlow : i < 16
  · simp [hi, hlow]
  · simp [BitVec.getLsbD_setWidth, BitVec.getLsbD_of_ge _ _ (Nat.not_lt.mp hlow)]

theorem fired_none {s : Instance} {fd : BitVec 32} (h : s.interest fd = none) (level : Levels) :
    s.fired level fd = 0 := by
  rw [Instance.fired, h]

theorem epollCtl_cases (level : Levels) (refuse : Option SysErr) (s : Instance)
    (op fd : BitVec 32) (event : Option EpollEvent) (pad : ℕ) :
    let run := epollCtl e arch level refuse s op fd event pad
    (∃ code, run = (.error code, s)) ∨
    (∃ ev, event = some ev ∧ op ≠ epollCtlDel ∧ fd.msb = false ∧
      run = (.ok (), s.watch level fd ev)) ∨
    (op = epollCtlDel ∧ run = (.ok (), s.forget fd)) := by
  intro run
  have herr : ∀ reason : SysErr, run = (unitRet reason.raw, s) →
      ∃ code, run = (.error code, s) := by
    intro reason h
    rw [unitRet_raw] at h
    exact ⟨_, h⟩
  by_cases hnull : op ≠ epollCtlDel ∧ (event.map (EpollEvent.image e arch pad)).isNone
  · refine Or.inl (herr .EFAULT ?_)
    simp only [run, epollCtl, sysEpollCtl, if_pos hnull]
  cases refuse with
  | some reason =>
    refine Or.inl (herr reason ?_)
    simp only [run, epollCtl, sysEpollCtl, if_neg hnull]
  | none =>
    simp only [run, epollCtl, sysEpollCtl, if_neg hnull] at herr ⊢
    by_cases hmsb : fd.msb = true
    · rw [if_pos hmsb] at herr ⊢
      exact Or.inl (herr .EBADF rfl)
    rw [if_neg hmsb] at herr ⊢
    have hfd : fd.msb = false := by simpa using hmsb
    by_cases hdel : op = epollCtlDel
    · have hadd : op ≠ epollCtlAdd := by rw [hdel]; decide
      have hmod : op ≠ epollCtlMod := by rw [hdel]; decide
      rw [if_neg hadd, if_neg hmod, if_pos hdel] at herr ⊢
      by_cases hsome : (s.interest fd).isSome = true
      · rw [if_pos hsome]
        exact Or.inr (Or.inr ⟨hdel, rfl⟩)
      · rw [if_neg hsome] at herr ⊢
        exact Or.inl (herr .ENOENT rfl)
    obtain ⟨ev, rfl⟩ : ∃ ev, event = some ev := by
      cases event with
      | none => exact absurd ⟨hdel, rfl⟩ hnull
      | some ev => exact ⟨ev, rfl⟩
    simp only [Option.map_some, Option.getD_some, kernelGet_image] at herr ⊢
    by_cases hadd : op = epollCtlAdd
    · rw [if_pos hadd] at herr ⊢
      by_cases hsome : (s.interest fd).isSome = true
      · rw [if_pos hsome] at herr ⊢
        exact Or.inl (herr .EEXIST rfl)
      · rw [if_neg hsome]
        exact Or.inr (Or.inl ⟨ev, rfl, hdel, hfd, rfl⟩)
    rw [if_neg hadd] at herr ⊢
    by_cases hmod : op = epollCtlMod
    · rw [if_pos hmod] at herr ⊢
      by_cases hsome : (s.interest fd).isSome = true
      · rw [if_pos hsome]
        exact Or.inr (Or.inl ⟨ev, rfl, hdel, hfd, rfl⟩)
      · rw [if_neg hsome] at herr ⊢
        exact Or.inl (herr .ENOENT rfl)
    · rw [if_neg hmod, if_neg hdel] at herr ⊢
      exact Or.inl (herr .EINVAL rfl)

theorem scan_spec (s : Instance) (level : Levels) (n : ℕ) (ready : List (BitVec 32)) :
    ((s.scan level n ready).1 ++ (s.scan level n ready).2).Sublist ready ∧
      (∀ fd ∈ (s.scan level n ready).1, s.fired level fd ≠ 0) ∧
      (s.scan level n ready).1.length ≤ n ∧
      ((s.scan level n ready).1.length < n → (s.scan level n ready).2 = []) ∧
      ∀ fd ∈ ready, s.fired level fd ≠ 0 →
        fd ∈ (s.scan level n ready).1 ∨ fd ∈ (s.scan level n ready).2 := by
  induction ready generalizing n with
  | nil =>
    rw [Instance.scan]
    exact ⟨List.Sublist.refl [], by simp, Nat.zero_le n, fun _ => rfl, by simp⟩
  | cons fd rest ih =>
    cases n with
    | zero =>
      rw [Instance.scan]
      exact ⟨List.Sublist.refl _, by simp, le_rfl, fun h => absurd h (Nat.lt_irrefl 0),
        fun _ hfd _ => Or.inr hfd⟩
    | succ n =>
      rw [Instance.scan]
      by_cases hfired : s.fired level fd = 0
      · rw [if_pos hfired]
        obtain ⟨hsub, hall, hlen, hshort, hfound⟩ := ih (n + 1)
        refine ⟨hsub.cons fd, hall, hlen, hshort, fun x hx hne => ?_⟩
        rcases List.mem_cons.mp hx with rfl | hx
        · exact absurd hfired hne
        · exact hfound x hx hne
      · rw [if_neg hfired]
        obtain ⟨hsub, hall, hlen, hshort, hfound⟩ := ih n
        refine ⟨hsub.cons_cons fd, ?_, Nat.succ_le_succ hlen,
          fun h => hshort (Nat.lt_of_succ_lt_succ h), fun x hx hne => ?_⟩
        · intro x hx
          rcases List.mem_cons.mp hx with rfl | hx
          · exact hfired
          · exact hall x hx
        · rcases List.mem_cons.mp hx with rfl | hx
          · exact Or.inl List.mem_cons_self
          · exact (hfound x hx hne).imp_left (List.mem_cons_of_mem fd)

theorem maxevents_some {len n : ℕ} (h : maxevents arch len = some n) :
    0 < n ∧ n ≤ len ∧ n < 2 ^ 31 := by
  unfold maxevents at h
  dsimp only at h
  split_ifs at h with hbad
  obtain rfl := Option.some.inj h
  have hint := BitVec.toInt_eq_toNat_cond (BitVec.ofNat 32 len)
  have hmod := Nat.mod_le len (2 ^ 32)
  rw [BitVec.toNat_ofNat] at hint
  split_ifs at hint with hlow
  · omega
  · omega

theorem report_of_fired {s : Instance} {level : Levels} {fd : BitVec 32}
    (h : s.fired level fd ≠ 0) : ∃ r, s.interest fd = some r ∧ r.spent = false := by
  cases hfd : s.interest fd with
  | none => exact absurd (fired_none hfd level) h
  | some r =>
    refine ⟨r, rfl, ?_⟩
    by_contra hspent
    exact h (fired_spent hfd (by simpa using hspent) level)

theorem length_reports {s : Instance} {level : Levels} {reported : List (BitVec 32)}
    (h : ∀ fd ∈ reported, s.fired level fd ≠ 0) :
    (reported.filterMap (s.report level)).length = reported.length := by
  induction reported with
  | nil => rfl
  | cons fd reported ih =>
    obtain ⟨r, hr, -⟩ := report_of_fired (h fd List.mem_cons_self)
    have hreport : s.report level fd = some ⟨s.fired level fd, r.event.data⟩ := by
      rw [Instance.report, hr, Option.map_some]
    rw [List.filterMap_cons_some hreport, List.length_cons, List.length_cons,
      ih fun x hx => h x (List.mem_cons_of_mem fd hx)]

theorem waitEvents_none {level : Levels} {s : Instance} {events : Events arch}
    (h : maxevents arch events.len = none) (interrupted : Bool) :
    waitEvents e level s events interrupted = (.err .EINVAL, s) := by
  simp only [waitEvents, epollWait, sysEpollWait, h, fromRet_raw]
  rfl

theorem waitEvents_some {level : Levels} {s : Instance} {events : Events arch} {n : ℕ}
    (h : maxevents arch events.len = some n) (interrupted : Bool) :
    waitEvents e level s events interrupted =
      (if (s.scan level n s.ready).1 = [] ∧ interrupted = true then .err .EINTR
        else .ok ((s.scan level n s.ready).1.filterMap (s.report level)),
        ⟨s.interest.tell (s.scan level n s.ready).1, (s.scan level n s.ready).2 ++
            (s.scan level n s.ready).1.filter s.requeues⟩) := by
  obtain ⟨-, hall, hlen, -, -⟩ := scan_spec s level n s.ready
  obtain ⟨-, hroom, hsmall⟩ := maxevents_some h
  have hreports := length_reports hall
  set reported := (s.scan level n s.ready).1 with hreported
  have hempty : (reported.filterMap (s.report level)).isEmpty = true ↔ reported = [] := by
    rw [List.isEmpty_iff_length_eq_zero, hreports, List.length_eq_zero_iff]
  simp only [waitEvents, epollWait, sysEpollWait, h, ← hreported]
  by_cases hquiet : reported = [] ∧ interrupted = true
  · rw [if_pos hquiet, if_pos (by simp [hempty.mpr hquiet.1, hquiet.2]), fromRet_raw]
    rfl
  · have hfits : (reported.filterMap (s.report level)).length ≤ events.len := by omega
    have hlt : (reported.filterMap (s.report level)).length < 2 ^ 63 := by omega
    have hbytes : (reported.filterMap (s.report level)).length * arch.kernelSize ≤
        events.bytes.length := by
      rw [events.fits, size_eq]
      exact Nat.mul_le_mul_right _ hfits
    have hloud : ¬ ((reported.filterMap (s.report level)).isEmpty && interrupted) = true := by
      rw [Bool.and_eq_true, hempty]
      exact hquiet
    rw [if_neg hquiet, if_neg hloud, fromRet_countRet hlt]
    simp only [Except.map, toNat_countRet hlt]
    rw [if_pos hfits, readEvents_putEvents e hbytes]

def Instance.isEdge (s : Instance) (fd : BitVec 32) : Bool :=
  ((s.interest fd).map fun r => r.event.isEdge).getD true

/-- The kernel watches what the caller has registered, and what is registered
level-triggered and ready is on the ready list. -/
structure Tracks (w : World) : Prop where
  agrees : w.inst.interest = w.wanted
  valid : ∀ fd r, w.wanted fd = some r → fd.msb = false
  listed : w.inst.ready.Nodup
  due : ∀ fd, w.inst.isEdge fd = false → w.inst.fired w.level fd ≠ 0 → fd ∈ w.inst.ready

theorem fired_congr {s s' : Instance} {level level' : Levels} {fd : BitVec 32}
    (hinterest : s.interest fd = s'.interest fd) (hlevel : level fd = level' fd) :
    s.fired level fd = s'.fired level' fd := by
  rw [Instance.fired, Instance.fired, hinterest, hlevel]

theorem isEdge_congr {s s' : Instance} {fd : BitVec 32}
    (hinterest : s.interest fd = s'.interest fd) : s.isEdge fd = s'.isEdge fd := by
  rw [Instance.isEdge, Instance.isEdge, hinterest]

theorem interest_wake (s : Instance) (level : Levels) (fd : BitVec 32) :
    (s.wake level fd).interest = s.interest := by
  unfold Instance.wake
  split_ifs
  · rfl
  · rfl

theorem nodup_wake {s : Instance} (h : s.ready.Nodup) (level : Levels) (fd : BitVec 32) :
    (s.wake level fd).ready.Nodup := by
  unfold Instance.wake
  split_ifs with hnew
  · have hcons : (fd :: s.ready).Nodup := List.nodup_cons.mpr ⟨by simpa using hnew.2, h⟩
    exact (List.perm_append_singleton fd s.ready).nodup_iff.mpr hcons
  · exact h

theorem mem_wake {s : Instance} {level : Levels} {fd x : BitVec 32}
    (h : x ∈ s.ready ∨ x = fd ∧ s.fired level fd ≠ 0) : x ∈ (s.wake level fd).ready := by
  unfold Instance.wake
  split_ifs with hnew
  · rcases h with hold | ⟨rfl, -⟩
    · exact List.mem_append_left _ hold
    · exact List.mem_append_right _ (List.mem_singleton_self x)
  · rcases h with hold | ⟨rfl, hfired⟩
    · exact hold
    · by_contra hout
      exact hnew ⟨hfired, by simpa using hout⟩

theorem due_wake {s s' : Instance} {level level' : Levels} {fd : BitVec 32}
    (hdue : ∀ x, s.isEdge x = false → s.fired level x ≠ 0 → x ∈ s.ready)
    (hready : s'.ready = s.ready)
    (hother : ∀ x, x ≠ fd → s'.interest x = s.interest x ∧ level' x = level x) (x : BitVec 32)
    (hlevel : (s'.wake level' fd).isEdge x = false)
    (hfired : (s'.wake level' fd).fired level' x ≠ 0) : x ∈ (s'.wake level' fd).ready := by
  have hsame := congrFun (interest_wake s' level' fd) x
  rw [isEdge_congr hsame] at hlevel
  rw [fired_congr hsame rfl] at hfired
  apply mem_wake
  by_cases hx : x = fd
  · exact Or.inr ⟨hx, hx ▸ hfired⟩
  · obtain ⟨hinterest, hlev⟩ := hother x hx
    rw [isEdge_congr hinterest] at hlevel
    rw [fired_congr hinterest hlev] at hfired
    rw [hready]
    exact Or.inl (hdue x hlevel hfired)

theorem valid_update {wanted : Interest} {fd : BitVec 32} {reg : Option Registration}
    (hvalid : ∀ x r, wanted x = some r → x.msb = false) (hfd : reg ≠ none → fd.msb = false)
    (x : BitVec 32) (r : Registration) (hx : Function.update wanted fd reg x = some r) :
    x.msb = false := by
  by_cases hxfd : x = fd
  · rw [hxfd, Function.update_self] at hx
    rw [hxfd]
    exact hfd (by rw [hx]; exact Option.some_ne_none r)
  · rw [Function.update_of_ne hxfd] at hx
    exact hvalid x r hx

theorem tracks_ctl {w : World} (h : Tracks w) (refuse : Option SysErr) (op fd : BitVec 32)
    (event : Option EpollEvent) (pad : ℕ) :
    Tracks (w.step e (.ctl refuse op fd event pad : Happening arch)) := by
  rw [World.step]
  rcases @epollCtl_cases e arch w.level refuse w.inst op fd event pad with
    ⟨code, hrun⟩ | ⟨ev, rfl, hdel, hfd, hrun⟩ | ⟨hdel, hrun⟩
  · rw [hrun]
    exact h
  · rw [hrun]
    dsimp only
    rw [if_neg hdel]
    refine ⟨?_, valid_update h.valid fun _ => hfd, ?_, ?_⟩
    · rw [Instance.watch, interest_wake, h.agrees]
      rfl
    · exact nodup_wake (s := ⟨Function.update w.inst.interest fd (some ⟨ev, false⟩), w.inst.ready⟩)
        h.listed _ _
    · exact due_wake h.due rfl fun x hx => ⟨Function.update_of_ne hx _ _, rfl⟩
  · rw [hrun]
    dsimp only
    rw [if_pos hdel]
    refine ⟨?_, valid_update h.valid fun hno => absurd rfl hno, h.listed.filter _, ?_⟩
    · rw [Instance.forget, h.agrees]
    · intro x hlevel hfired
      by_cases hxfd : x = fd
      · have hnone : (w.inst.forget fd).interest x = none := by
          rw [hxfd]
          exact Function.update_self ..
        exact absurd (fired_none hnone w.level) hfired
      · have hsame : (w.inst.forget fd).interest x = w.inst.interest x :=
          Function.update_of_ne hxfd _ _
        rw [isEdge_congr hsame] at hlevel
        rw [fired_congr hsame rfl] at hfired
        exact List.mem_filter.mpr ⟨h.due x hlevel hfired, by simpa using hxfd⟩

theorem tracks_becomes {w : World} (h : Tracks w) (fd : BitVec 32) (mask : BitVec 16) :
    Tracks (w.step e (.becomes fd mask : Happening arch)) := by
  rw [World.step]
  refine ⟨?_, h.valid, nodup_wake h.listed _ _, ?_⟩
  · rw [interest_wake]
    exact h.agrees
  · exact due_wake h.due rfl fun x hx => ⟨rfl, Function.update_of_ne hx _ _⟩

theorem tell_of_notMem {interest : Interest} {reported : List (BitVec 32)} {fd : BitVec 32}
    (h : fd ∉ reported) : interest.tell reported fd = interest fd :=
  if_neg fun hin => h (List.contains_iff_mem.mp hin)

theorem tell_eq_some {interest : Interest} {reported : List (BitVec 32)} {fd : BitVec 32}
    {r : Registration} (h : interest.tell reported fd = some r) :
    ∃ r', interest fd = some r' ∧ r'.event = r.event ∧ (r.spent = false → r'.spent = false) ∧
      (fd ∈ reported → r.spent = false → r.event.isOneShot = false) := by
  unfold Interest.tell at h
  split_ifs at h with hin
  · obtain ⟨r', hr', rfl⟩ := Option.map_eq_some_iff.mp h
    refine ⟨r', hr', rfl, fun hspent => ?_, fun _ hspent => ?_⟩
    · exact (Bool.or_eq_false_iff.mp hspent).1
    · exact (Bool.or_eq_false_iff.mp hspent).2
  · exact ⟨r, h, rfl, id, fun hmem => absurd (List.contains_iff_mem.mpr hmem) hin⟩

theorem tracks_wait {w : World} (h : Tracks w) (events : Events arch) (interrupted : Bool) :
    Tracks (w.step e (.wait events interrupted)) := by
  rw [World.step]
  cases hn : maxevents arch events.len with
  | none =>
    have htaken : w.inst.taken w.level arch events.len = [] := by rw [Instance.taken, hn]
    have hsame : w.wanted.tell [] = w.wanted := funext fun fd => tell_of_notMem List.not_mem_nil
    rw [waitEvents_none e hn, htaken, hsame]
    exact h
  | some n =>
    obtain ⟨hsub, -, -, -, hfound⟩ := scan_spec w.inst w.level n w.inst.ready
    have htaken : w.inst.taken w.level arch events.len = (w.inst.scan w.level n w.inst.ready).1 := by
      rw [Instance.taken, hn]
    rw [waitEvents_some e hn, htaken]
    set reported := (w.inst.scan w.level n w.inst.ready).1 with hreported
    refine ⟨congrArg (Interest.tell · reported) h.agrees, ?_, ?_, ?_⟩
    · intro fd r hr
      obtain ⟨r', hr', -⟩ := tell_eq_some hr
      exact h.valid fd r' hr'
    · have hnodup := h.listed.sublist hsub
      have hback : ((w.inst.scan w.level n w.inst.ready).2 ++ reported).Nodup :=
        List.perm_append_comm.nodup_iff.mp hnodup
      exact hback.sublist ((List.Sublist.refl _).append List.filter_sublist)
    · intro x hlevel hfired
      obtain ⟨r, hr, hspent⟩ := report_of_fired hfired
      obtain ⟨r', hr', hevent, hfresh, honce⟩ := tell_eq_some hr
      have hold : w.inst.fired w.level x ≠ 0 := by
        rw [Instance.fired, hr] at hfired
        rw [Instance.fired, hr']
        dsimp only at hfired ⊢
        rw [hspent] at hfired
        rwa [hfresh hspent, hevent]
      have hedge : r'.event.isEdge = false := by
        rw [Instance.isEdge, hr] at hlevel
        rw [hevent]
        exact hlevel
      have hwas : w.inst.isEdge x = false := by
        rw [Instance.isEdge, hr']
        exact hedge
      rcases hfound x (h.due x hwas hold) hold with hin | hleft
      · -- a one-shot registration that was reported has nothing more to report
        have hrequeued : w.inst.requeues x = true := by
          rw [Instance.requeues, hr', Option.map_some, Option.getD_some, hedge, hevent,
            honce hin hspent]
          rfl
        exact List.mem_append_right _ (List.mem_filter.mpr ⟨hin, hrequeued⟩)
      · exact List.mem_append_left _ hleft

theorem tracks_run {w : World} (h : Tracks w) (hs : List (Happening arch)) :
    Tracks (w.run e hs) := by
  induction hs generalizing w with
  | nil => exact h
  | cons step hs ih =>
    cases step with
    | ctl refuse op fd event pad => exact ih (tracks_ctl e h refuse op fd event pad)
    | becomes fd mask => exact ih (tracks_becomes e h fd mask)
    | wait events interrupted => exact ih (tracks_wait e h events interrupted)

theorem tracks_start : Tracks .start :=
  ⟨rfl, by simp [World.start], List.nodup_nil, by simp [World.start, Instance.isEdge]⟩

def World.told (w : World) (fd : BitVec 32) : Option EpollEvent :=
  (w.wanted fd).map fun r => ⟨(polled w.level fd r.event).setWidth 32, r.event.data⟩

theorem Tracks.fired_iff {w : World} (h : Tracks w) {fd : BitVec 32} :
    w.inst.fired w.level fd ≠ 0 ↔
      ∃ r, w.wanted fd = some r ∧ r.spent = false ∧ polled w.level fd r.event ≠ 0 := by
  rw [← h.agrees]
  have hzero : ∀ x : BitVec 16, x.setWidth 32 = 0 ↔ x = 0 := by
    intro x
    constructor
    · intro hx
      have hback := congrArg (BitVec.setWidth 16) hx
      simpa using hback
    · rintro rfl
      rfl
  constructor
  · intro hfired
    obtain ⟨r, hr, hspent⟩ := report_of_fired hfired
    have hfd := h.valid fd r (h.agrees ▸ hr)
    rw [fired_some hr hspent hfd, Ne, hzero] at hfired
    exact ⟨r, hr, hspent, hfired⟩
  · rintro ⟨r, hr, hspent, hpolled⟩
    have hfd := h.valid fd r (h.agrees ▸ hr)
    rw [fired_some hr hspent hfd, Ne, hzero]
    exact hpolled

theorem Tracks.report_eq {w : World} (h : Tracks w) {fd : BitVec 32}
    (hfired : w.inst.fired w.level fd ≠ 0) : w.inst.report w.level fd = w.told fd := by
  obtain ⟨r, hr, hspent⟩ := report_of_fired hfired
  have hfd := h.valid fd r (h.agrees ▸ hr)
  rw [Instance.report, World.told, ← h.agrees, hr, Option.map_some, Option.map_some,
    fired_some hr hspent hfd]

end RustyLibc.Epoll
