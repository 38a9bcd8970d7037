import RustyLibc.FdStreams
import RustyLibc.Resources

/-!
# The descriptor table of a process (`fd.rs`)

What a call does to the table is read off its request and reply: an `open` or a
`socket` that succeeds adds the descriptor it returns, and a `close` removes its
descriptor whatever it returns. All other calls leave the table alone.
-/

namespace RustyLibc.Fd
open HostCalls Outcome Resources

inductive Opened where
  | file (path : List UInt8)
  | socket (family : UInt16) (kind protocol : ℤ)
  deriving DecidableEq

abbrev Descriptors := Table RawFd Opened

abbrev Change := Effect RawFd Opened

def Step.effect : Step → Option Change
  | ⟨.openat _ path _ _, .ok fd⟩ => some (.acquire fd (.file path))
  | ⟨.close fd, _⟩ => some (.release fd)
  | _ => none

def effects (trace : List Step) : List Change := trace.filterMap Step.effect

@[simp] theorem effects_append (t u : List Step) : effects (t ++ u) = effects t ++ effects u :=
  List.filterMap_append

def Request.IsRead : Request → Prop
  | .read _ _ => True
  | _ => False

theorem effects_of_reads {trace : List Step} (h : ∀ e ∈ trace, e.request.IsRead) :
    effects trace = [] := by
  apply List.filterMap_eq_nil_iff.mpr
  intro e he
  have hread := h e he
  obtain ⟨request, reply⟩ := e
  cases request with
  | read fd len => rfl
  | openat dir path flags mode => exact hread.elim
  | write fd bytes => exact hread.elim
  | close fd => exact hread.elim

variable {σ : Type}

theorem readAllStep_asks (kernel : Kernel σ) (fd : RawFd) (st : Slice × ℕ) :
    Asks Request.IsRead (readAllStep kernel fd st) := by
  unfold readAllStep
  split_ifs
  · refine (Asks.lift _).bind fun tail => ?_
    refine (Asks.attempt kernel trivial).bind fun reply => ?_
    cases reply with
    | ok bs =>
      dsimp only
      split_ifs
      · exact Asks.pure _
      · exact (Asks.lift _).bind fun total => Asks.pure _
    | error e =>
      dsimp only
      split_ifs
      · exact Asks.pure _
      · exact Asks.lift _
  · exact Asks.pure _

theorem readAll_asks (kernel : Kernel σ) (fd : RawFd) (passes : ℕ) (buf : Slice) :
    Asks Request.IsRead (readAll kernel fd passes buf) :=
  Asks.loop (readAllStep_asks kernel fd) passes (buf, 0)

end RustyLibc.Fd
