import Mathlib.Logic.Function.Basic

/-!
# Handles that are handed out and given back

A table says which resource stands behind a handle. A run of a program changes
it by handing out handles and by taking them back, and `after` is what it leaves.
A run that gives back each handle before it takes the next leaves the table as it
was, provided that every handle was free when it was handed out.
-/

namespace RustyLibc.Resources

variable {κ ν : Type} [DecidableEq κ]

abbrev Table (κ ν : Type) := κ → Option ν

inductive Effect (κ ν : Type) where
  | acquire (handle : κ) (resource : ν)
  | release (handle : κ)
  deriving DecidableEq

def Effect.apply (T : Table κ ν) : Effect κ ν → Table κ ν
  | .acquire k v => Function.update T k (some v)
  | .release k => Function.update T k none

def after (T : Table κ ν) (es : List (Effect κ ν)) : Table κ ν := es.foldl Effect.apply T

/-- No handle is handed out that the table has already. -/
def Fresh (T : Table κ ν) : List (Effect κ ν) → Prop
  | [] => True
  | .acquire k v :: es => T k = none ∧ Fresh ((Effect.acquire k v).apply T) es
  | .release k :: es => Fresh ((Effect.release k).apply T) es

/-- Every handle is given back before another one is taken, and nothing else is
given back. -/
inductive Paired : List (Effect κ ν) → Prop where
  | nil : Paired []
  | pair (k : κ) (v : ν) {es : List (Effect κ ν)} (rest : Paired es) :
      Paired (.acquire k v :: .release k :: es)

omit [DecidableEq κ] in
theorem Paired.append {es fs : List (Effect κ ν)} (hes : Paired es) (hfs : Paired fs) :
    Paired (es ++ fs) := by
  induction hes with
  | nil => exact hfs
  | pair k v rest ih => exact .pair k v ih

omit [DecidableEq κ] in
theorem Paired.single (k : κ) (v : ν) : Paired [.acquire k v, .release k] := .pair k v .nil

theorem release_acquire {T : Table κ ν} {k : κ} (v : ν) (h : T k = none) :
    (Effect.release k).apply ((Effect.acquire k v).apply T) = T := by
  rw [Effect.apply, Effect.apply, Function.update_idem, ← h, Function.update_eq_self]

theorem Paired.after_eq {T : Table κ ν} {es : List (Effect κ ν)} (h : Paired es)
    (hfresh : Fresh T es) : after T es = T := by
  induction h with
  | nil => rfl
  | pair k v rest ih =>
    obtain ⟨hfree, hrest⟩ := hfresh
    rw [Fresh, release_acquire v hfree] at hrest
    change after ((Effect.release k).apply ((Effect.acquire k v).apply T)) _ = T
    rw [release_acquire v hfree]
    exact ih hrest

theorem after_acquire_ne {T : Table κ ν} {k : κ} (v : ν) (h : T k = none) :
    after T [.acquire k v] ≠ T := by
  intro hsame
  have hk : after T [.acquire k v] k = some v := by
    change Function.update T k (some v) k = some v
    rw [Function.update_self]
  rw [hsame, h] at hk
  cases hk

end RustyLibc.Resources
