import RustyLibc.HostCalls

/-!
# Hosts that cannot be told apart

Two hosts whose states are related give the same replies and stay related. A
computation that knows its host by the replies only then ends alike with either
of them, and leaves the same trace. The relation may fix a part of one state that
the other does not have, which makes this a frame rule.
-/

namespace RustyLibc.HostCalls

variable {ρ : Type} {Rep : ρ → Type} {ε σ σ' α β ι τ : Type} {R : σ → σ' → Prop}

def Alike (R : σ → σ' → Prop) (host : Host Rep ε σ) (host' : Host Rep ε σ') : Prop :=
  ∀ r s s', R s s' → (host r s).1 = (host' r s').1 ∧ R (host r s).2 (host' r s').2

/-- `y` does to its host what `x` does to the other one. -/
def Mirrors (R : σ → σ' → Prop) (x : Sys Rep ε σ α) (y : Sys Rep ε σ' α) : Prop :=
  ∀ s s' trace, R s s' → ∃ out u u' trace', x ⟨s, trace⟩ = (out, ⟨u, trace'⟩) ∧
    y ⟨s', trace⟩ = (out, ⟨u', trace'⟩) ∧ R u u'

theorem Mirrors.lift (x : Outcome ε α) :
    Mirrors R (Sys.lift x : Sys Rep ε σ α) (Sys.lift x : Sys Rep ε σ' α) :=
  fun s s' trace h => ⟨x, s, s', trace, rfl, rfl, h⟩

theorem Mirrors.pure (a : α) :
    Mirrors R (Pure.pure a : Sys Rep ε σ α) (Pure.pure a : Sys Rep ε σ' α) :=
  Mirrors.lift (.ok a)

theorem Mirrors.ofExcept (x : Except ε α) :
    Mirrors R (Sys.ofExcept x : Sys Rep ε σ α) (Sys.ofExcept x : Sys Rep ε σ' α) := by
  cases x with
  | ok a => exact Mirrors.lift (.ok a)
  | error e => exact Mirrors.lift (.err e)

theorem Mirrors.attempt {host : Host Rep ε σ} {host' : Host Rep ε σ'} (h : Alike R host host')
    (r : ρ) : Mirrors R (Sys.attempt host r) (Sys.attempt host' r) := by
  intro s s' trace hs
  obtain ⟨hreply, hstate⟩ := h r s s' hs
  refine ⟨_, _, _, _, rfl, ?_, hstate⟩
  rw [hreply, Sys.attempt_apply]

theorem Mirrors.bind {x : Sys Rep ε σ α} {y : Sys Rep ε σ' α} {f : α → Sys Rep ε σ β}
    {g : α → Sys Rep ε σ' β} (hx : Mirrors R x y) (hf : ∀ a, Mirrors R (f a) (g a)) :
    Mirrors R (x >>= f) (y >>= g) := by
  intro s s' trace hs
  obtain ⟨out, u, u', trace', hrun, hrun', hu⟩ := hx s s' trace hs
  change ∃ out v v' trace'', Sys.bind x f _ = (out, ⟨v, trace''⟩) ∧
    Sys.bind y g _ = (out, ⟨v', trace''⟩) ∧ R v v'
  rw [Sys.bind, Sys.bind, hrun, hrun']
  cases out with
  | ok a => exact hf a u u' trace' hu
  | err e => exact ⟨.err e, u, u', trace', rfl, rfl, hu⟩
  | panic => exact ⟨.panic, u, u', trace', rfl, rfl, hu⟩
  | diverge => exact ⟨.diverge, u, u', trace', rfl, rfl, hu⟩

theorem Mirrors.call {host : Host Rep ε σ} {host' : Host Rep ε σ'} (h : Alike R host host')
    (r : ρ) : Mirrors R (Sys.call host r) (Sys.call host' r) :=
  (Mirrors.attempt h r).bind Mirrors.ofExcept

theorem Mirrors.capture {x : Sys Rep ε σ α} {y : Sys Rep ε σ' α} (hx : Mirrors R x y) :
    Mirrors R (Sys.capture x) (Sys.capture y) := by
  intro s s' trace hs
  obtain ⟨out, u, u', trace', hrun, hrun', hu⟩ := hx s s' trace hs
  rw [Sys.capture, Sys.capture, hrun, hrun']
  cases out with
  | ok a => exact ⟨_, u, u', trace', rfl, rfl, hu⟩
  | err e => exact ⟨_, u, u', trace', rfl, rfl, hu⟩
  | panic => exact ⟨_, u, u', trace', rfl, rfl, hu⟩
  | diverge => exact ⟨_, u, u', trace', rfl, rfl, hu⟩

theorem Mirrors.firstSome {f : ι → Sys Rep ε σ (Option β)} {g : ι → Sys Rep ε σ' (Option β)}
    (hf : ∀ i, Mirrors R (f i) (g i)) (is : List ι) :
    Mirrors R (Sys.firstSome f is) (Sys.firstSome g is) := by
  induction is with
  | nil => exact Mirrors.pure none
  | cons i is ih =>
    refine (hf i).bind fun r => ?_
    cases r with
    | some b => exact Mirrors.pure (some b)
    | none => exact ih

theorem Mirrors.loop {body : τ → Sys Rep ε σ (Outcome.Pass τ α)}
    {body' : τ → Sys Rep ε σ' (Outcome.Pass τ α)} (hbody : ∀ t, Mirrors R (body t) (body' t))
    (fuel : ℕ) (t : τ) : Mirrors R (Sys.loop body fuel t) (Sys.loop body' fuel t) := by
  induction fuel generalizing t with
  | zero => exact Mirrors.lift .diverge
  | succ fuel ih =>
    refine (hbody t).bind fun r => ?_
    cases r with
    | next t' => exact ih t'
    | done a => exact Mirrors.pure a

end RustyLibc.HostCalls
