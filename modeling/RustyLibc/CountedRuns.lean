import Mathlib.Data.Nat.Basic

/-!
# Runs whose steps have a charge

A transition system in which every step carries a natural number, its charge. A
run adds up the charges of its steps. If a potential falls by one in every step
but for what the step is charged, then the length of a run is bounded by its
charge and the potential it started with.
-/

namespace RustyLibc.CountedRuns

variable {σ : Type} {step : ℕ → σ → σ → Prop} {s t : σ} {n c : ℕ}

/-- `Run step n c s t`: there are `n` steps from `s` to `t`, with the charge `c` in all. -/
inductive Run (step : ℕ → σ → σ → Prop) : ℕ → ℕ → σ → σ → Prop
  | nil (s : σ) : Run step 0 0 s s
  | cons {n c d : ℕ} {s t u : σ} (h : step d s t) (rest : Run step n c t u) :
      Run step (n + 1) (d + c) s u

theorem Run.invariant {I : σ → Prop} (hstep : ∀ d s t, step d s t → I s → I t)
    (hrun : Run step n c s t) (hs : I s) : I t := by
  induction hrun with
  | nil s => exact hs
  | cons h _ ih => exact ih (hstep _ _ _ h hs)

theorem Run.length_le {potential : σ → ℕ}
    (hstep : ∀ d s t, step d s t → potential t + 1 ≤ potential s + d)
    (hrun : Run step n c s t) : n + potential t ≤ c + potential s := by
  induction hrun with
  | nil s => exact le_rfl
  | cons h _ ih =>
    have hfall := hstep _ _ _ h
    omega

end RustyLibc.CountedRuns
