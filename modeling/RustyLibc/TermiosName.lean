import RustyLibc.DecimalText
import RustyLibc.Errno
import RustyLibc.HostCalls

/-!
# The path of a terminal (`termios.rs`, `fs.rs`)

`ttyname` asks the kernel for the target of the link `/proc/self/fd/<fd>`, whose
path `proc_fd_path` renders into 32 bytes. `readlinkat` fills as much of the
buffer as the target takes and does not say whether it was cut, so a full buffer
is reported as `ERANGE`. An empty buffer never gets that far: the kernel refuses
it, and the caller sees that refusal instead.
-/

namespace RustyLibc.Termios
open HostCalls Outcome Text

abbrev RawFd := BitVec 32

def atFdcwd : RawFd := BitVec.ofInt 32 (-100)

/-- `tcgets` is the `ioctl` of that name. A path is its bytes without the final
NUL. -/
inductive Request where
  | tcgets (fd : RawFd)
  | readlinkat (dirfd : RawFd) (path : List UInt8) (len : ℕ)
  deriving DecidableEq

/-- What a successful call hands over. The attributes of a terminal are not
looked at. -/
abbrev Reply : Request → Type
  | .tcgets _ => Unit
  | .readlinkat _ _ len => { bs : List UInt8 // bs.length ≤ len }

variable {σ : Type}

abbrev Kernel (σ : Type) := Host Reply Errno σ

abbrev Call (σ α : Type) := Sys Reply Errno σ α

def procPrefix : List UInt8 := utf8 "/proc/self/fd/".toList

def array (out : Vector UInt8 32) : Slice := ⟨out.toList, by rw [Vector.length_toList]; decide⟩

def finishPath (out : Slice) (start n : ℕ) : Outcome Errno (List UInt8) := do
  let (out, pos) ← writeDigits out start n
  let out ← out.reverseAt start pos
  terminate out pos

def procFdPath (fd : RawFd) (out : Vector UInt8 32) : Outcome Errno (List UInt8) := do
  let out ← (array out).copyAt 0 procPrefix.length procPrefix
  let pos := procPrefix.length
  if fd.toInt < 0 then do
    let out ← out.store pos 45
    let pos ← uadd pos 1
    finishPath out pos fd.toInt.natAbs
  else finishPath out pos fd.toInt.natAbs

def isatty (kernel : Kernel σ) (fd : RawFd) : Call σ Bool := do
  match ← Sys.attempt kernel (.tcgets fd) with
  | .ok _ => pure true
  | .error _ => pure false

def readlinkat (kernel : Kernel σ) (dirfd : RawFd) (path : List UInt8) (buf : Slice) :
    Call σ (List UInt8) := do
  let bs ← Sys.call kernel (.readlinkat dirfd path buf.len)
  Sys.lift ((buf.patch 0 bs.val).range 0 bs.val.length)

def ttyname (kernel : Kernel σ) (fd : RawFd) (buf : Slice) : Call σ (List UInt8) := do
  if !(← isatty kernel fd) then Sys.lift (.err .ENOTTY)
  else do
    let path ← Sys.lift (procFdPath fd (Vector.replicate 32 0))
    let fullLen := buf.len
    let target ← readlinkat kernel atFdcwd path buf
    if target.length = fullLen then Sys.lift (.err .ERANGE) else pure target

def fdPath (fd : RawFd) : List UInt8 := procPrefix ++ decimalInt fd.toInt

theorem fdPath_injective {fd fd' : RawFd} (h : fdPath fd = fdPath fd') : fd = fd' := by
  have hdigits := List.append_cancel_left h
  exact BitVec.eq_of_toInt_eq (decimalInt_injective hdigits)

theorem length_decimal_natAbs (fd : RawFd) : (decimal fd.toInt.natAbs).length ≤ 10 := by
  apply length_decimal_le (by omega)
  have hlo := fd.le_toInt
  have hhi := fd.toInt_lt
  omega

theorem finishPath_front {out : Slice} {front : List UInt8} {n : ℕ}
    (hfits : front.length + (decimal n).length < out.len) (hnul : 0 ∉ front) :
    finishPath (out.patch 0 front) front.length n = .ok (front ++ decimal n) := by
  have hsame : (front ++ (decimal n).reverse).length = (front ++ decimal n).length := by simp
  rw [finishPath, writeDigits_front (by omega), ok_bind]
  dsimp only
  rw [Slice.reverseAt_front (by rw [List.length_reverse]; omega), ok_bind, List.reverse_reverse,
    hsame]
  apply terminate_front
  · rw [List.length_append]
    exact hfits
  · rw [List.mem_append]
    exact fun h => h.elim hnul (nul_not_mem_decimal n)

theorem procFdPath_eq (fd : RawFd) (out : Vector UInt8 32) :
    procFdPath fd out = .ok (fdPath fd) := by
  have hdigits := length_decimal_natAbs fd
  have hlen : (array out).len = 32 := Vector.length_toList
  have hpre : procPrefix.length = 14 := by decide
  have hnul : 0 ∉ procPrefix := by decide
  rw [procFdPath, Slice.copyAt_zero (by omega), ok_bind, fdPath]
  by_cases hneg : fd.toInt < 0
  · have hsign : (procPrefix ++ [45]).length = procPrefix.length + 1 := by simp
    rw [if_pos hneg, Slice.store_front (by omega), ok_bind, uadd_eq_ok (by omega), ok_bind, ← hsign,
      finishPath_front (by omega) (by decide), decimalInt_of_neg hneg, List.append_assoc]
    rfl
  · rw [if_neg hneg, finishPath_front (by omega) hnul, decimalInt_of_nonneg (by omega)]

section Replies

variable {kernel : Kernel σ} {fd : RawFd} {w : World Reply Errno σ} {s s' : σ}

theorem isatty_of_reply {reply : Except Errno Unit}
    (h : kernel (.tcgets fd) w.state = (reply, s)) :
    isatty kernel fd w = (.ok reply.isOk, ⟨s, w.trace ++ [⟨.tcgets fd, reply⟩]⟩) := by
  rw [isatty, Sys.bind_of_ok (Sys.attempt_of_reply h)]
  cases reply with
  | ok u => rfl
  | error e => rfl

theorem ttyname_of_refusal {e : Errno} (buf : Slice)
    (h : kernel (.tcgets fd) w.state = (.error e, s)) :
    ttyname kernel fd buf w = (.err .ENOTTY, ⟨s, w.trace ++ [⟨.tcgets fd, .error e⟩]⟩) := by
  rw [ttyname, Sys.bind_of_ok (isatty_of_reply h)]
  rfl

theorem readlinkat_of_ok {path : List UInt8} {buf : Slice}
    {bs : { bs : List UInt8 // bs.length ≤ buf.len }}
    (h : kernel (.readlinkat atFdcwd path buf.len) w.state = (.ok bs, s)) :
    readlinkat kernel atFdcwd path buf w =
      (.ok bs.val, ⟨s, w.trace ++ [⟨.readlinkat atFdcwd path buf.len, .ok bs⟩]⟩) := by
  rw [readlinkat, Sys.bind_of_ok (Sys.call_of_reply h), Slice.range_front bs.property]
  rfl

theorem ttyname_of_tty {u : Unit} (buf : Slice) (h : kernel (.tcgets fd) w.state = (.ok u, s)) :
    ttyname kernel fd buf w =
      (readlinkat kernel atFdcwd (fdPath fd) buf >>= fun target =>
        if target.length = buf.len then Sys.lift (.err .ERANGE) else pure target)
        ⟨s, w.trace ++ [⟨.tcgets fd, .ok u⟩]⟩ := by
  rw [ttyname, Sys.bind_of_ok (isatty_of_reply h)]
  change (Sys.lift (procFdPath fd (Vector.replicate 32 0)) >>= _) _ = _
  rw [procFdPath_eq, Sys.bind_of_ok (Sys.lift_apply _ _)]

theorem ttyname_of_failed_read {u : Unit} {e : Errno} {buf : Slice}
    (h : kernel (.tcgets fd) w.state = (.ok u, s))
    (h' : kernel (.readlinkat atFdcwd (fdPath fd) buf.len) s = (.error e, s')) :
    ttyname kernel fd buf w = (.err e, ⟨s', w.trace ++ [⟨.tcgets fd, .ok u⟩] ++
      [⟨.readlinkat atFdcwd (fdPath fd) buf.len, .error e⟩]⟩) := by
  have hread := Sys.bind_of_err (f := fun bs => Sys.lift ((buf.patch 0 bs.val).range 0 bs.val.length))
    (Sys.call_of_error (w := ⟨s, w.trace ++ [⟨.tcgets fd, .ok u⟩]⟩) h')
  rw [ttyname_of_tty buf h]
  exact Sys.bind_of_err hread

theorem ttyname_of_target {u : Unit} {buf : Slice}
    {bs : { bs : List UInt8 // bs.length ≤ buf.len }}
    (h : kernel (.tcgets fd) w.state = (.ok u, s))
    (h' : kernel (.readlinkat atFdcwd (fdPath fd) buf.len) s = (.ok bs, s')) :
    ttyname kernel fd buf w =
      (if bs.val.length = buf.len then .err .ERANGE else .ok bs.val,
        ⟨s', w.trace ++ [⟨.tcgets fd, .ok u⟩] ++
          [⟨.readlinkat atFdcwd (fdPath fd) buf.len, .ok bs⟩]⟩) := by
  rw [ttyname_of_tty buf h, Sys.bind_of_ok (readlinkat_of_ok h')]
  split_ifs
  · rfl
  · rfl

end Replies

def link (e : Event Reply Errno) : Option (List UInt8) :=
  match e.request with
  | .tcgets _ => none
  | .readlinkat _ path _ => some path

theorem ttyname_links (kernel : Kernel σ) (fd : RawFd) (buf : Slice) (w : World Reply Errno σ) :
    ∃ t, (ttyname kernel fd buf w).2.trace = w.trace ++ t ∧
      ∀ e ∈ t, ∀ path, link e = some path → path = fdPath fd := by
  rcases htty : kernel (.tcgets fd) w.state with ⟨reply, s⟩
  cases reply with
  | error e =>
    rw [ttyname_of_refusal buf htty]
    refine ⟨_, rfl, ?_⟩
    simp [link]
  | ok u =>
    rcases hread : kernel (.readlinkat atFdcwd (fdPath fd) buf.len) s with ⟨reply', s'⟩
    cases reply' with
    | error e =>
      rw [ttyname_of_failed_read htty hread]
      refine ⟨_, List.append_assoc _ _ _, ?_⟩
      simp [link]
    | ok bs =>
      rw [ttyname_of_target htty hread]
      refine ⟨_, List.append_assoc _ _ _, ?_⟩
      simp [link]

/-- `proc_fd_path` renders every descriptor inside its buffer and gives no two of
them the same path, so `ttyname` never reads the link of another descriptor. -/
theorem procFdPath_canonical (fd : RawFd) (out : Vector UInt8 32) :
    procFdPath fd out = .ok (utf8 "/proc/self/fd/".toList ++ utf8 (toString fd.toInt).toList) ∧
    (∀ fd' out', procFdPath fd' out' = procFdPath fd out → fd' = fd) ∧
    ∀ (σ : Type) (kernel : Kernel σ) (buf : Slice) (w : World Reply Errno σ),
      ∃ t, (ttyname kernel fd buf w).2.trace = w.trace ++ t ∧
        ∀ e ∈ t, ∀ path, link e = some path → procFdPath fd out = .ok path ∧
          ∀ fd' out', procFdPath fd' out' = .ok path → fd' = fd := by
  refine ⟨procFdPath_eq fd out, fun fd' out' h => ?_, fun σ kernel buf w => ?_⟩
  · rw [procFdPath_eq, procFdPath_eq] at h
    exact fdPath_injective (Outcome.ok.inj h)
  · obtain ⟨t, htrace, hlinks⟩ := ttyname_links kernel fd buf w
    refine ⟨t, htrace, fun e he path hpath => ?_⟩
    rw [hlinks e he path hpath, procFdPath_eq]
    refine ⟨rfl, fun fd' out' h => ?_⟩
    rw [procFdPath_eq] at h
    exact fdPath_injective (Outcome.ok.inj h)

/-- What a descriptor is to the kernel: a terminal whose link has a target, or
anything else, for which `TCGETS` reports an error. -/
inductive Kind where
  | terminal (target : List UInt8) (nonempty : target ≠ [])
  | other (refusal : Errno)

/-- The kernel treats `fd` as `kind` says. `readlinkat` fills a buffer with as
much of the target as fits, and refuses an empty buffer. -/
def Treats (kernel : Kernel σ) (fd : RawFd) : Kind → Prop
  | .terminal target _ => (∀ s, (kernel (.tcgets fd) s).1 = .ok ()) ∧
      ∀ s len, (kernel (.readlinkat atFdcwd (fdPath fd) len) s).1 =
        if len = 0 then .error .EINVAL else .ok ⟨target.take len, List.length_take_le _ _⟩
  | .other refusal => ∀ s, (kernel (.tcgets fd) s).1 = .error refusal

def named (len : ℕ) : Kind → Outcome Errno (List UInt8)
  | .terminal target _ => if target.length < len then .ok target else .err .ERANGE
  | .other _ => .err .ENOTTY

/-- `ttyname` cuts no path short and reports every buffer that is too small,
except that an empty buffer for a terminal is reported as the kernel's
`EINVAL`. -/
theorem ttyname_exact_iff (kernel : Kernel σ) (fd : RawFd) (kind : Kind)
    (htreats : Treats kernel fd kind) (buf : Slice) (w : World Reply Errno σ) :
    (ttyname kernel fd buf w).1 = named buf.len kind ↔ 0 < buf.len ∨ ∃ e, kind = .other e := by
  cases kind with
  | other refusal =>
    have htty : kernel (.tcgets fd) w.state = (.error refusal, (kernel (.tcgets fd) w.state).2) :=
      Prod.ext (htreats _) rfl
    rw [ttyname_of_refusal buf htty]
    exact iff_of_true rfl (Or.inr ⟨refusal, rfl⟩)
  | terminal target nonempty =>
    have hno : ¬ ∃ e, Kind.terminal target nonempty = .other e := by
      rintro ⟨e, he⟩
      cases he
    obtain ⟨htcgets, hreadlink⟩ := htreats
    rw [or_iff_left hno]
    have htty : kernel (.tcgets fd) w.state = (.ok (), (kernel (.tcgets fd) w.state).2) :=
      Prod.ext (htcgets _) rfl
    rcases hread : kernel (.readlinkat atFdcwd (fdPath fd) buf.len)
      (kernel (.tcgets fd) w.state).2 with ⟨reply, s'⟩
    have hreply := hreadlink (kernel (.tcgets fd) w.state).2 buf.len
    rw [hread] at hreply
    by_cases hzero : buf.len = 0
    · rw [if_pos hzero] at hreply
      dsimp only at hreply
      subst hreply
      rw [ttyname_of_failed_read htty hread]
      refine iff_of_false ?_ (by omega)
      rw [named, if_neg (by omega)]
      exact fun h => absurd (Outcome.err.inj h) (by decide)
    · rw [if_neg hzero] at hreply
      dsimp only at hreply
      subst hreply
      rw [ttyname_of_target htty hread]
      refine iff_of_true ?_ (by omega)
      by_cases hfits : target.length < buf.len
      · have hall : target.take buf.len = target := List.take_of_length_le hfits.le
        rw [named, if_pos hfits, if_neg (by rw [List.length_take]; omega)]
        exact congrArg Outcome.ok hall
      · rw [named, if_neg hfits, if_pos (by rw [List.length_take]; omega)]

def ptsTarget : List UInt8 := utf8 "/dev/pts/7".toList

def oneTerminal : Kernel Unit
  | .tcgets fd, s => (if fd = 0 then .ok () else .error .ENOTTY, s)
  | .readlinkat _ _ len, s =>
    (if len = 0 then .error .EINVAL else .ok ⟨ptsTarget.take len, List.length_take_le _ _⟩, s)

theorem oneTerminal_treats : Treats oneTerminal 0 (.terminal ptsTarget (by decide)) :=
  ⟨fun _ => rfl, fun _ _ => rfl⟩

def slice (n : ℕ) (h : n < 2 ^ 63) : Slice := ⟨List.replicate n 0, by rwa [List.length_replicate]⟩

theorem ttyname_exact_sixteen :
    (ttyname oneTerminal 0 (slice 16 (by decide)) ⟨(), []⟩).1 = .ok ptsTarget :=
  (ttyname_exact_iff oneTerminal 0 _ oneTerminal_treats (slice 16 (by decide)) ⟨(), []⟩).mpr
    (Or.inl (by decide))

theorem ttyname_empty_buffer :
    Treats oneTerminal 0 (.terminal ptsTarget (by decide)) ∧
      (ttyname oneTerminal 0 (slice 0 (by decide)) ⟨(), []⟩).1 = .err .EINVAL ∧
      (ttyname oneTerminal 0 (slice 0 (by decide)) ⟨(), []⟩).1 ≠
        named 0 (.terminal ptsTarget (by decide)) := by
  have hrun : (ttyname oneTerminal 0 (slice 0 (by decide)) ⟨(), []⟩).1 = .err .EINVAL := rfl
  refine ⟨oneTerminal_treats, hrun, ?_⟩
  rw [hrun]
  exact fun h => absurd (Outcome.err.inj h) (by decide)

end RustyLibc.Termios
