import RustyLibc.Outcome
import Mathlib.Data.List.TakeDrop

/-!
# Streams of self-delimiting records

A `Framing` reads the length of the first record off the front of a stream.
Its one law says that the length is decided by the record itself: whatever
follows the record, the same length is read. Everything else follows from the
law, over any element type. A stream is drained to the end exactly when it is a
concatenation of records, and a stream that stops strictly inside a record is
rejected.

`drain` runs an iterator to its end under a budget; `drain_simulation` moves a
result about the framing to any iterator whose steps match its steps.
-/

namespace RustyLibc.RecordStream
open Outcome

variable {ε α β σ τ : Type}

def drain (next : σ → Outcome ε (Option (α × σ))) : ℕ → σ → Outcome ε (List α)
  | 0, _ => .diverge
  | fuel + 1, s => next s >>= fun
    | none => .ok []
    | some (a, t) => (drain next fuel t).map (a :: ·)

theorem drain_succ (next : σ → Outcome ε (Option (α × σ))) (fuel : ℕ) (s : σ) :
    drain next (fuel + 1) s = next s >>= fun
      | none => .ok []
      | some (a, t) => (drain next fuel t).map (a :: ·) := rfl

def StepMatch (R : σ → τ → Prop) :
    Outcome ε (Option (α × σ)) → Outcome ε (Option (α × τ)) → Prop
  | .ok none, .ok none => True
  | .ok (some (a, s)), .ok (some (b, t)) => a = b ∧ R s t
  | .err e, .err e' => e = e'
  | .panic, .panic => True
  | .diverge, .diverge => True
  | _, _ => False

theorem drain_simulation {next : σ → Outcome ε (Option (α × σ))}
    {next' : τ → Outcome ε (Option (α × τ))} {R : σ → τ → Prop}
    (hstep : ∀ s t, R s t → StepMatch R (next s) (next' t)) (fuel : ℕ) {s : σ} {t : τ}
    (hst : R s t) : drain next fuel s = drain next' fuel t := by
  induction fuel generalizing s t with
  | zero => rfl
  | succ fuel ih =>
    have h := hstep s t hst
    rw [drain_succ, drain_succ]
    generalize next s = x, next' t = y at h
    match x, y, h with
    | .ok none, .ok none, _ => rfl
    | .ok (some (a, s')), .ok (some (_, t')), ⟨rfl, hR⟩ => simp only [ok_bind, ih hR]
    | .err _, .err _, rfl => rfl
    | .panic, .panic, _ => rfl
    | .diverge, .diverge, _ => rfl

structure Framing (β α : Type) where
  size : List β → Option ℕ
  view : List β → α
  size_pos : ∀ {bs k}, size bs = some k → 0 < k
  size_le : ∀ {bs k}, size bs = some k → k ≤ bs.length
  size_take : ∀ {bs k}, size bs = some k → ∀ rest, size (bs.take k ++ rest) = some k

namespace Framing

def IsRecord (F : Framing β α) (r : List β) : Prop := F.size r = some r.length

def next (F : Framing β α) (bs : List β) : Outcome ε (Option (α × List β)) :=
  if bs.isEmpty then .ok none
  else match F.size bs with
    | some k => .ok (some (F.view (bs.take k), bs.drop k))
    | none => .panic

variable {F : Framing β α}

theorem IsRecord.size_append {r : List β} (hr : F.IsRecord r) (rest : List β) :
    F.size (r ++ rest) = some r.length := by
  simpa only [List.take_length] using F.size_take hr rest

theorem isRecord_take {bs : List β} {k : ℕ} (h : F.size bs = some k) : F.IsRecord (bs.take k) := by
  have hk : (bs.take k).length = k := List.length_take_of_le (F.size_le h)
  simpa only [IsRecord, List.append_nil, hk] using F.size_take h []

theorem IsRecord.size_take_eq_none {r : List β} (hr : F.IsRecord r) {j : ℕ} (hj : j < r.length) :
    F.size (r.take j) = none := by
  cases hs : F.size (r.take j) with
  | none => rfl
  | some k =>
    have hkj : k ≤ j := (F.size_le hs).trans (List.length_take_le j r)
    have hwhole := F.size_take hs (r.drop k)
    rw [List.take_take, Nat.min_eq_left hkj, List.take_append_drop, hr, Option.some.injEq] at hwhole
    omega

theorem next_nil : (F.next [] : Outcome ε (Option (α × List β))) = .ok none := rfl

theorem next_of_size {bs : List β} {k : ℕ} (h : F.size bs = some k) :
    (F.next bs : Outcome ε (Option (α × List β))) =
      .ok (some (F.view (bs.take k), bs.drop k)) := by
  have hne : ¬ bs.isEmpty := by
    intro hnil
    have := F.size_le h
    have := F.size_pos h
    simp_all
  simp [next, hne, h]

theorem next_of_size_none {bs : List β} (hne : bs ≠ []) (h : F.size bs = none) :
    (F.next bs : Outcome ε (Option (α × List β))) = .panic := by
  simp [next, hne, h]

theorem drain_of_size {bs : List β} {k : ℕ} (h : F.size bs = some k) (fuel : ℕ) :
    (drain F.next (fuel + 1) bs : Outcome ε (List α)) =
      (drain F.next fuel (bs.drop k)).map (F.view (bs.take k) :: ·) := by
  rw [drain_succ, next_of_size h, ok_bind]

theorem drain_of_size_none {bs : List β} (hne : bs ≠ []) (h : F.size bs = none) (fuel : ℕ) :
    (drain F.next (fuel + 1) bs : Outcome ε (List α)) = .panic := by
  rw [drain_succ, next_of_size_none hne h, panic_bind]

theorem IsRecord.drain_append {r : List β} (hr : F.IsRecord r) (rest : List β) (fuel : ℕ) :
    (drain F.next (fuel + 1) (r ++ rest) : Outcome ε (List α)) =
      (drain F.next fuel rest).map (F.view r :: ·) := by
  rw [drain_of_size (hr.size_append rest), List.take_left, List.drop_left]

theorem drain_flatten {rs : List (List β)} (hrs : ∀ r ∈ rs, F.IsRecord r) {fuel : ℕ}
    (hfuel : rs.flatten.length < fuel) :
    (drain F.next fuel rs.flatten : Outcome ε (List α)) = .ok (rs.map F.view) := by
  induction rs generalizing fuel with
  | nil =>
    obtain ⟨fuel, rfl⟩ : ∃ m, fuel = m + 1 := ⟨fuel - 1, by omega⟩
    rfl
  | cons r rs ih =>
    obtain ⟨fuel, rfl⟩ : ∃ m, fuel = m + 1 := ⟨fuel - 1, by omega⟩
    have hr := hrs r List.mem_cons_self
    have hpos := F.size_pos hr
    rw [List.flatten_cons, List.length_append] at hfuel
    rw [List.flatten_cons, hr.drain_append,
      ih (fun x hx => hrs x (List.mem_cons_of_mem _ hx)) (by omega)]
    rfl

theorem eq_flatten_of_drain {fuel : ℕ} {bs : List β} {as : List α}
    (h : (drain F.next fuel bs : Outcome ε (List α)) = .ok as) :
    ∃ rs : List (List β), rs.flatten = bs ∧ (∀ r ∈ rs, F.IsRecord r) ∧ as = rs.map F.view := by
  induction fuel generalizing bs as with
  | zero => cases h
  | succ fuel ih =>
    by_cases hne : bs = []
    · subst hne
      rw [drain_succ, next_nil, ok_bind, Outcome.ok.injEq] at h
      exact ⟨[], rfl, by simp, h.symm⟩
    · cases hs : F.size bs with
      | none =>
        rw [drain_of_size_none hne hs] at h
        cases h
      | some k =>
        rw [drain_of_size hs, map_eq_ok] at h
        obtain ⟨tail, hd, rfl⟩ := h
        obtain ⟨rs, hflat, hrec, rfl⟩ := ih hd
        refine ⟨bs.take k :: rs, ?_, ?_, rfl⟩
        · rw [List.flatten_cons, hflat, List.take_append_drop]
        · intro r hr
          rcases List.mem_cons.mp hr with rfl | hr
          · exact isRecord_take hs
          · exact hrec r hr

theorem drain_total {fuel : ℕ} {bs : List β} (hfuel : bs.length < fuel) :
    (∃ as, (drain F.next fuel bs : Outcome ε (List α)) = .ok as) ∨
      (drain F.next fuel bs : Outcome ε (List α)) = .panic := by
  induction fuel generalizing bs with
  | zero => exact absurd hfuel (Nat.not_lt_zero _)
  | succ fuel ih =>
    by_cases hne : bs = []
    · subst hne
      exact Or.inl ⟨[], rfl⟩
    · cases hs : F.size bs with
      | none => exact Or.inr (drain_of_size_none hne hs fuel)
      | some k =>
        rw [drain_of_size hs]
        have hpos := F.size_pos hs
        have hle := F.size_le hs
        have hdrop : (bs.drop k).length < fuel := by
          rw [List.length_drop]
          omega
        rcases ih hdrop with ⟨as, has⟩ | hpanic
        · exact Or.inl ⟨_, by rw [has]; rfl⟩
        · exact Or.inr (by rw [hpanic]; rfl)

/-- A stream that stops strictly inside a record is rejected, and nothing is
returned for the records before it. -/
theorem drain_cut {pre : List (List β)} (hpre : ∀ r ∈ pre, F.IsRecord r) {r : List β}
    (hr : F.IsRecord r) {j : ℕ} (hj : 0 < j) (hjr : j < r.length) {fuel : ℕ}
    (hfuel : pre.flatten.length < fuel) :
    (drain F.next fuel (pre.flatten ++ r.take j) : Outcome ε (List α)) = .panic := by
  induction pre generalizing fuel with
  | nil =>
    obtain ⟨fuel, rfl⟩ : ∃ m, fuel = m + 1 := ⟨fuel - 1, by omega⟩
    have hne : r.take j ≠ [] := by
      refine List.ne_nil_of_length_pos ?_
      rw [List.length_take]
      omega
    rw [List.flatten_nil, List.nil_append, drain_of_size_none hne (hr.size_take_eq_none hjr)]
  | cons x pre ih =>
    obtain ⟨fuel, rfl⟩ : ∃ m, fuel = m + 1 := ⟨fuel - 1, by omega⟩
    have hx := hpre x List.mem_cons_self
    have hpos := F.size_pos hx
    rw [List.flatten_cons, List.length_append] at hfuel
    rw [List.flatten_cons, List.append_assoc, hx.drain_append,
      ih (fun y hy => hpre y (List.mem_cons_of_mem _ hy)) (by omega)]
    rfl

theorem drain_iff {fuel : ℕ} {bs : List β} (hfuel : bs.length < fuel) :
    (∃ as, (drain F.next fuel bs : Outcome ε (List α)) = .ok as) ↔
      ∃ rs : List (List β), rs.flatten = bs ∧ ∀ r ∈ rs, F.IsRecord r := by
  constructor
  · intro h
    obtain ⟨as, has⟩ := h
    obtain ⟨rs, hflat, hrs, -⟩ := eq_flatten_of_drain has
    exact ⟨rs, hflat, hrs⟩
  · intro h
    obtain ⟨rs, rfl, hrs⟩ := h
    exact ⟨_, drain_flatten hrs hfuel⟩

section Encoded

variable {ι : Type} {enc : ι → List β}

theorem isRecord_of_mem_map (henc : ∀ x, F.IsRecord (enc x)) (xs : List ι) :
    ∀ r ∈ xs.map enc, F.IsRecord r := by
  intro r hr
  obtain ⟨x, -, rfl⟩ := List.mem_map.mp hr
  exact henc x

theorem drain_encoded (henc : ∀ x, F.IsRecord (enc x)) (xs : List ι) {fuel : ℕ}
    (hfuel : (xs.flatMap enc).length < fuel) :
    (drain F.next fuel (xs.flatMap enc) : Outcome ε (List α)) =
      .ok (xs.map fun x => F.view (enc x)) := by
  rw [List.flatMap_def] at hfuel ⊢
  rw [drain_flatten (isRecord_of_mem_map henc xs) hfuel, List.map_map]
  rfl

theorem drain_encoded_cut (henc : ∀ x, F.IsRecord (enc x)) (xs : List ι) (x : ι) {j : ℕ}
    (hj : 0 < j) (hjx : j < (enc x).length) {fuel : ℕ}
    (hfuel : (xs.flatMap enc ++ (enc x).take j).length < fuel) :
    (drain F.next fuel (xs.flatMap enc ++ (enc x).take j) : Outcome ε (List α)) = .panic := by
  rw [List.length_append] at hfuel
  rw [List.flatMap_def] at hfuel ⊢
  exact drain_cut (isRecord_of_mem_map henc xs) (henc x) hj hjx (by omega)

end Encoded

end Framing

theorem takeWhile_nul {name pad : List UInt8} (hname : 0 ∉ name)
    (hpad : pad = [] ∨ pad.head? = some 0) : (name ++ pad).takeWhile (· ≠ 0) = name := by
  have hkept : ∀ b ∈ name, decide (b ≠ 0) = true := by
    intro b hb
    simpa using fun h0 : b = 0 => hname (h0 ▸ hb)
  have hdropped : pad.takeWhile (· ≠ 0) = [] := by
    rcases hpad with h | h
    · simp [h]
    · obtain ⟨rest, hrest⟩ := List.head?_eq_some_iff.mp h
      simp [hrest]
  rw [List.takeWhile_append_of_pos hkept, hdropped, List.append_nil]

end RustyLibc.RecordStream
