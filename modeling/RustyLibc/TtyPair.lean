import RustyLibc.DecimalText
import RustyLibc.FdTable

/-!
# Opening a pair of terminals (`tty.rs`)

`openpty` opens the master, unlocks the slave, asks for its number and opens the
device of that number. The calls of `fd.rs` and the `ioctl`s are two kinds of
requests to one kernel. A call that fails behind the first one is followed by a
`close` of the master, so that a run either adds both descriptors to the table or
none.
-/

namespace RustyLibc.Tty
open HostCalls Outcome Resources Text
open Fd (RawFd Opened)

def tiocsptlck : ℕ := 0x40045431
def tiocgptn : ℕ := 0x80045430
def oRdwr : ℤ := 2

/-- An `ioctl` with a pointer to an `i32`, which the kernel reads or writes. -/
inductive Ioctl where
  | set (fd : RawFd) (request : ℕ) (value : BitVec 32)
  | get (fd : RawFd) (request : ℕ)
  deriving DecidableEq

abbrev Ioctl.Reply : Ioctl → Type
  | .set _ _ _ => Unit
  | .get _ _ => BitVec 32

abbrev Reply : Fd.Request ⊕ Ioctl → Type := Both Fd.Reply Ioctl.Reply

variable {σ : Type}

abbrev Kernel (σ : Type) := Host Reply Errno σ

abbrev Call (σ α : Type) := Sys Reply Errno σ α

abbrev Step := Event Reply Errno

def ptmx : List UInt8 := utf8 "/dev/ptmx".toList
def ptsPrefix : List UInt8 := utf8 "/dev/pts/".toList

def array (buf : Vector UInt8 21) : Slice := ⟨buf.toList, by rw [Vector.length_toList]; decide⟩

def noDigits : Slice := ⟨List.replicate 10 0, by decide⟩

def formatPtsPath (ptn : BitVec 32) (buf : Vector UInt8 21) : Outcome Errno (List UInt8) := do
  let buf ← (array buf).copyAt 0 ptsPrefix.length ptsPrefix
  let (digits, len) ← writeDigits noDigits 0 ptn.toNat
  let digits ← digits.reverseAt 0 len
  let stop ← uadd ptsPrefix.length len
  let written ← digits.range 0 len
  let buf ← buf.copyAt ptsPrefix.length stop written
  terminate buf stop

/-- `let _ = close(master); return Err(e);` -/
def giveUp {α : Type} (kernel : Kernel σ) (master : RawFd) (e : Errno) : Call σ α := do
  let _ ← Sys.attempt kernel (.inl (.close master))
  Sys.lift (.err e)

def openpty (kernel : Kernel σ) : Call σ (RawFd × RawFd) := do
  let master ← Sys.call kernel (.inl (.openat Fd.atFdcwd ptmx oRdwr 0))
  match ← Sys.attempt kernel (.inr (.set master tiocsptlck 0)) with
  | .error e => giveUp kernel master e
  | .ok _ => do
    match ← Sys.attempt kernel (.inr (.get master tiocgptn)) with
    | .error e => giveUp kernel master e
    | .ok ptn => do
      let path ← Sys.lift (formatPtsPath ptn (Vector.replicate 21 0))
      match ← Sys.attempt kernel (.inl (.openat Fd.atFdcwd path oRdwr 0)) with
      | .ok slave => pure (master, slave)
      | .error e => giveUp kernel master e

def ptsPath (n : ℕ) : List UInt8 := ptsPrefix ++ decimal n

theorem formatPtsPath_eq (ptn : BitVec 32) (buf : Vector UInt8 21) :
    formatPtsPath ptn buf = .ok (ptsPath ptn.toNat) := by
  have hdigits : (decimal ptn.toNat).length ≤ 10 := by
    apply length_decimal_le (by omega)
    have hlt := ptn.isLt
    omega
  have hlen : (array buf).len = 21 := Vector.length_toList
  have hten : noDigits.len = 10 := by decide
  have hpre : ptsPrefix.length = 9 := by decide
  have hroom : ([] : List UInt8).length + (decimal ptn.toNat).length ≤ noDigits.len := by
    rw [hten, List.length_nil]
    omega
  have hroom' : ([] : List UInt8).length + (decimal ptn.toNat).reverse.length ≤ noDigits.len := by
    rwa [List.length_reverse]
  have hwrite := writeDigits_front (ε := Errno) hroom
  have hreverse := Slice.reverseAt_front (ε := Errno) hroom'
  simp only [Slice.patch_nil, List.length_nil, List.nil_append, List.length_reverse,
    List.reverse_reverse] at hwrite hreverse
  rw [formatPtsPath, Slice.copyAt_zero (by omega), ok_bind, hwrite, ok_bind]
  dsimp only
  rw [hreverse, ok_bind, uadd_eq_ok (by omega), ok_bind, Slice.range_front (by omega), ok_bind,
    Slice.copyAt_front (by omega), ok_bind, ← List.length_append]
  apply terminate_front
  · rw [List.length_append]
    omega
  · rw [List.mem_append]
    exact fun h => h.elim (by decide) (nul_not_mem_decimal _)

/-- The `ioctl`s of this module open and close nothing. -/
def effects (trace : List Step) : List Fd.Change :=
  trace.filterMap (Event.elim Fd.Step.effect fun _ => none)

def failure (e : Step) : Option Errno :=
  match e.reply with
  | .ok _ => none
  | .error code => some code

abbrev opening (path : List UInt8) : Fd.Request := .openat Fd.atFdcwd path oRdwr 0

theorem giveUp_leaves {α : Type} {kernel : Kernel σ} {master : RawFd} {e : Errno}
    {w v : World Reply Errno σ} {r : Outcome Errno α} (hrun : giveUp kernel master e w = (r, v))
    (hfirst : w.trace.findSome? failure = some e)
    (hopen : effects w.trace = [.acquire master (.file ptmx)]) :
    r = .err e ∧ v.trace.findSome? failure = some e ∧
      effects v.trace = [.acquire master (.file ptmx), .release master] := by
  rw [giveUp, Sys.bind_of_ok (Sys.attempt_apply _ _ _)] at hrun
  obtain ⟨rfl, rfl⟩ := Prod.mk.inj hrun
  refine ⟨rfl, ?_, ?_⟩
  · rw [List.findSome?_append, hfirst]
    rfl
  · rw [effects, List.filterMap_append]
    exact congrArg (· ++ [.release master]) hopen

theorem openpty_cases {kernel : Kernel σ} {s : σ} {r : Outcome Errno (RawFd × RawFd)}
    {w : World Reply Errno σ} (hrun : openpty kernel ⟨s, []⟩ = (r, w)) :
    (∃ master slave ptn, r = .ok (master, slave) ∧ w.trace =
      [⟨.inl (opening ptmx), .ok master⟩, ⟨.inr (.set master tiocsptlck 0), .ok ()⟩,
        ⟨.inr (.get master tiocgptn), .ok ptn⟩,
        ⟨.inl (opening (ptsPath ptn.toNat)), .ok slave⟩]) ∨
    ∃ e, r = .err e ∧ w.trace.findSome? failure = some e ∧ (effects w.trace = [] ∨
      ∃ master, effects w.trace = [.acquire master (.file ptmx), .release master]) := by
  rcases hopen : kernel (.inl (opening ptmx)) s with ⟨reply, s₁⟩
  rw [openpty] at hrun
  cases reply with
  | error e =>
    rw [Sys.bind_of_err (Sys.call_of_error (w := ⟨s, []⟩) hopen)] at hrun
    obtain ⟨rfl, rfl⟩ := Prod.mk.inj hrun
    exact Or.inr ⟨e, rfl, rfl, Or.inl rfl⟩
  | ok master =>
    rw [Sys.bind_of_ok (Sys.call_of_reply (w := ⟨s, []⟩) hopen)] at hrun
    rcases hset : kernel (.inr (.set master tiocsptlck 0)) s₁ with ⟨reply, s₂⟩
    rw [Sys.bind_of_ok (Sys.attempt_of_reply hset)] at hrun
    cases reply with
    | error e =>
      obtain ⟨hr, hfirst, hleft⟩ := giveUp_leaves hrun rfl rfl
      exact Or.inr ⟨e, hr, hfirst, Or.inr ⟨master, hleft⟩⟩
    | ok u =>
      dsimp only at hrun
      rcases hget : kernel (.inr (.get master tiocgptn)) s₂ with ⟨reply, s₃⟩
      rw [Sys.bind_of_ok (Sys.attempt_of_reply hget)] at hrun
      cases reply with
      | error e =>
        obtain ⟨hr, hfirst, hleft⟩ := giveUp_leaves hrun rfl rfl
        exact Or.inr ⟨e, hr, hfirst, Or.inr ⟨master, hleft⟩⟩
      | ok ptn =>
        dsimp only at hrun
        rw [formatPtsPath_eq, Sys.bind_of_ok (Sys.lift_apply _ _)] at hrun
        rcases hslave : kernel (.inl (opening (ptsPath ptn.toNat))) s₃ with ⟨reply, s₄⟩
        rw [Sys.bind_of_ok (Sys.attempt_of_reply hslave)] at hrun
        cases reply with
        | error e =>
          obtain ⟨hr, hfirst, hleft⟩ := giveUp_leaves hrun rfl rfl
          exact Or.inr ⟨e, hr, hfirst, Or.inr ⟨master, hleft⟩⟩
        | ok slave =>
          obtain ⟨rfl, rfl⟩ := Prod.mk.inj hrun
          exact Or.inl ⟨master, slave, ptn, rfl, rfl⟩

theorem decimal_eq_toString (n : ℕ) : decimal n = utf8 (toString n).toList := by
  rw [decimal, Nat.toString_eq_repr, Nat.toList_repr]

/-- A run of `openpty` makes its four calls in order and adds the two descriptors it
returns, the slave on the device of the number that the kernel reported, or it returns the error of the
first call that failed and leaves the table as it was. -/
theorem openpty_all_or_nothing (kernel : Kernel σ) (s : σ) (r : Outcome Errno (RawFd × RawFd))
    (w : World Reply Errno σ) (hrun : openpty kernel ⟨s, []⟩ = (r, w)) (T : Fd.Descriptors)
    (hfresh : Fresh T (effects w.trace)) :
    ((∃ (master slave : RawFd) (ptn : BitVec 32) (path : List UInt8), r = .ok (master, slave) ∧
        w.trace = [⟨.inl (opening ptmx), .ok master⟩, ⟨.inr (.set master tiocsptlck 0), .ok ()⟩,
          ⟨.inr (.get master tiocgptn), .ok ptn⟩, ⟨.inl (opening path), .ok slave⟩] ∧
        (∀ n : ℕ, ptn.toInt = (n : ℤ) → path = utf8 "/dev/pts/".toList ++ utf8 (toString n).toList) ∧
        T master = none ∧ T slave = none ∧ master ≠ slave ∧
        after T (effects w.trace) =
          Function.update (Function.update T master (some (.file (utf8 "/dev/ptmx".toList)))) slave
            (some (.file path))) ∨
      ∃ e, r = .err e ∧ w.trace.findSome? failure = some e ∧ after T (effects w.trace) = T) ∧
    ∀ ptn buf, ∃ path, formatPtsPath ptn buf = .ok path := by
  refine ⟨?_, fun ptn buf => ⟨_, formatPtsPath_eq ptn buf⟩⟩
  rcases openpty_cases hrun with ⟨master, slave, ptn, rfl, htrace⟩ | ⟨e, rfl, hfirst, heffects⟩
  · have heffects : effects w.trace =
        [.acquire master (.file ptmx), .acquire slave (.file (ptsPath ptn.toNat))] := by
      rw [htrace]
      rfl
    rw [heffects] at hfresh ⊢
    obtain ⟨hmaster, hslave, -⟩ := hfresh
    -- the slave was free with the master in the table already
    have hne : master ≠ slave := by
      rintro rfl
      rw [Effect.apply, Function.update_self] at hslave
      cases hslave
    rw [Effect.apply, Function.update_of_ne (Ne.symm hne)] at hslave
    refine Or.inl ⟨master, slave, ptn, ptsPath ptn.toNat, rfl, htrace, ?_, hmaster, hslave, hne,
      rfl⟩
    intro n hn
    have hnat : ptn.toNat = n := by
      have hlt := ptn.isLt
      rw [BitVec.toInt_eq_toNat_cond] at hn
      split_ifs at hn
      · omega
      · omega
    rw [hnat, ptsPath, decimal_eq_toString]
    rfl
  · refine Or.inr ⟨e, rfl, hfirst, ?_⟩
    rcases heffects with hnone | ⟨master, hboth⟩
    · rw [hnone]
      rfl
    · rw [hboth] at hfresh ⊢
      exact (Paired.single master _).after_eq hfresh

def lastSlave : Kernel ℕ
  | .inl (.openat _ _ _ _), next => (.ok next, next + 1)
  | .inl (.read _ _), next => (.error .EINVAL, next)
  | .inl (.write _ _), next => (.error .EINVAL, next)
  | .inl (.close _), next => (.ok (), next)
  | .inr (.set _ _ _), next => (.ok (), next)
  | .inr (.get _ _), next => (.ok 7, next)

theorem openpty_lastSlave :
    ∃ master slave : RawFd, (openpty lastSlave ⟨3, []⟩).1 = .ok (master, slave) ∧ master ≠ slave := by
  have heffects : effects (openpty lastSlave ⟨3, []⟩).2.trace =
      [.acquire 3 (.file ptmx), .acquire 4 (.file (ptsPath 7))] := by decide +kernel
  have hok : (openpty lastSlave ⟨3, []⟩).1 = .ok (3, 4) := by decide +kernel
  have hfresh : Fresh (fun _ => none) (effects (openpty lastSlave ⟨3, []⟩).2.trace) := by
    rw [heffects]
    exact ⟨rfl, rfl, trivial⟩
  rcases (openpty_all_or_nothing lastSlave 3 _ _ (Prod.eta _).symm (fun _ => none) hfresh).1 with
    ⟨master, slave, -, -, hr, -, -, -, -, hne, -⟩ | ⟨e, hr, -⟩
  · exact ⟨master, slave, hr, hne⟩
  · rw [hok] at hr
    cases hr

end RustyLibc.Tty
