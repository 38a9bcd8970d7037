import Mathlib.Logic.Relation
import Mathlib.Data.Nat.Basic

/-!
# Runs of a deterministic machine

A machine is a partial step function; a state without a successor is halted.
A run that halts does so in one state only, whatever prefix of it has been
followed, and a machine that keeps coming back to an invariant never halts.
-/

namespace RustyLibc.StepMachine

variable {σ π : Type} {next : σ → Option σ}

def Step (next : σ → Option σ) (s t : σ) : Prop := next s = some t

def Reaches (next : σ → Option σ) : σ → σ → Prop := Relation.ReflTransGen (Step next)

def EndsIn (next : σ → Option σ) (s t : σ) : Prop := Reaches next s t ∧ next t = none

def run (next : σ → Option σ) : ℕ → σ → σ
  | 0, s => s
  | n + 1, s => match next s with
    | some t => run next n t
    | none => s

theorem reaches_run (n : ℕ) (s : σ) : Reaches next s (run next n s) := by
  induction n generalizing s with
  | zero => exact .refl
  | succ n ih =>
    rw [run]
    cases hs : next s with
    | none => exact .refl
    | some t => exact .head hs (ih t)

theorem Reaches.of_run {n : ℕ} {s t : σ} (h : run next n s = t) : Reaches next s t :=
  h ▸ reaches_run n s

theorem reaches_of_endsIn {s t u : σ} (hst : Reaches next s t) (hsu : EndsIn next s u) :
    Reaches next t u := by
  induction hst using Relation.ReflTransGen.head_induction_on with
  | refl => exact hsu.1
  | head hstep _ ih =>
    rcases hsu.1.cases_head with rfl | ⟨w, hw, hwu⟩
    · exact absurd (hstep.symm.trans hsu.2) (by simp)
    · obtain rfl : w = _ := Option.some.inj (hw.symm.trans hstep)
      exact ih ⟨hwu, hsu.2⟩

theorem endsIn_iff_of_reaches {s t u : σ} (hst : Reaches next s t) :
    EndsIn next s u ↔ EndsIn next t u :=
  ⟨fun h => ⟨reaches_of_endsIn hst h, h.2⟩, fun h => ⟨hst.trans h.1, h.2⟩⟩

theorem EndsIn.unique {s t u : σ} (ht : EndsIn next s t) (hu : EndsIn next s u) : t = u := by
  rcases (reaches_of_endsIn ht.1 hu).cases_head with rfl | ⟨w, hw, -⟩
  · rfl
  · exact absurd (ht.2.symm.trans hw) (by simp)

/-- The run from `s` halts, and what `view` shows of the last state is `p`. -/
def EndsWith (next : σ → Option σ) (view : σ → π) (s : σ) (p : π) : Prop :=
  ∃ t, EndsIn next s t ∧ view t = p

theorem endsWith_iff_of_reaches {view : σ → π} {s t : σ} {p : π} (hst : Reaches next s t) :
    EndsWith next view s p ↔ EndsWith next view t p :=
  exists_congr fun _ => and_congr_left' (endsIn_iff_of_reaches hst)

theorem EndsWith.of_reaches {view : σ → π} {s t : σ} {p : π} (hst : Reaches next s t)
    (h : EndsWith next view t p) : EndsWith next view s p :=
  (endsWith_iff_of_reaches hst).mpr h

theorem EndsWith.unique {view : σ → π} {s : σ} {p q : π} (hp : EndsWith next view s p)
    (hq : EndsWith next view s q) : p = q := by
  obtain ⟨t, ht, rfl⟩ := hp
  obtain ⟨u, hu, rfl⟩ := hq
  rw [ht.unique hu]

theorem EndsWith.iff_eq {view : σ → π} {s : σ} {p q : π} (hp : EndsWith next view s p) :
    EndsWith next view s q ↔ q = p :=
  ⟨fun hq => hq.unique hp, fun hq => hq ▸ hp⟩

/-- A machine that from every state of `I` comes back to `I` in at least one
step never halts from `I`. -/
theorem not_endsIn_of_recurrent {I : σ → Prop}
    (hI : ∀ s, I s → ∃ t u, Step next s t ∧ Reaches next t u ∧ I u) {s : σ} (hs : I s) (t : σ) :
    ¬ EndsIn next s t := by
  intro h
  obtain ⟨hreach, hhalt⟩ := h
  -- The set of states from which the run still passes through `I`.
  let J : σ → Prop := fun x => ∃ y, Reaches next x y ∧ I y
  have hJ : J t := by
    refine Relation.ReflTransGen.rec (motive := fun x _ => J x) ⟨s, .refl, hs⟩ ?_ hreach
    intro x y _ hxy h
    obtain ⟨z, hxz, hz⟩ := h
    rcases hxz.cases_head with rfl | ⟨w, hw, hwz⟩
    · obtain ⟨t', u, hstep, hreach', hu⟩ := hI x hz
      obtain rfl : t' = y := Option.some.inj (hstep.symm.trans hxy)
      exact ⟨u, hreach', hu⟩
    · obtain rfl : w = y := Option.some.inj (hw.symm.trans hxy)
      exact ⟨z, hwz, hz⟩
  obtain ⟨y, hty, hy⟩ := hJ
  rcases hty.cases_head with rfl | ⟨w, hw, -⟩
  · obtain ⟨t', -, hstep, -⟩ := hI t hy
    exact absurd (hhalt.symm.trans hstep) (by simp)
  · exact absurd (hhalt.symm.trans hw) (by simp)

end RustyLibc.StepMachine
