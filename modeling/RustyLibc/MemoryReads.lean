import RustyLibc.HostCalls
import Mathlib.Data.Set.Basic

/-!
# Programs that read memory

Memory is a host that answers every address with the byte it holds, so that the
trace of a run is the list of the addresses read. `Yields m S x v` says that
`x` ends in `v` on the memory `m` and reads inside `S` only. Addresses are words
of any width and wrap around.
-/

namespace RustyLibc.MemoryReads
open HostCalls

variable {w : ℕ} {β ε α γ σ ι : Type}

abbrev Memory (w : ℕ) (β : Type) := BitVec w → β

abbrev Look (w : ℕ) (β ε α : Type) := Sys (fun _ : BitVec w => β) ε (Memory w β) α

def memory : Host (fun _ : BitVec w => β) ε (Memory w β) := fun a m => (.ok (m a), m)

def peek (a : BitVec w) : Look w β ε β := Sys.call memory a

def peekRun (a : BitVec w) : ℕ → Look w β ε (List β)
  | 0 => pure []
  | n + 1 => do
    let b ← peek a
    let bs ← peekRun (a + 1) n
    pure (b :: bs)

/-- `o?` in a function that returns an option. -/
def orReturn (o : Option α) (f : α → Look w β ε (Option γ)) : Look w β ε (Option γ) :=
  match o with
  | none => pure none
  | some a => f a

theorem orReturn_map (o : Option ι) (h : ι → α) (f : α → Look w β ε (Option γ)) :
    orReturn (o.map h) f = orReturn o fun i => f (h i) := by
  cases o <;> rfl

def Holds (m : Memory w β) (a : BitVec w) (bs : List β) : Prop :=
  ∀ i b, bs[i]? = some b → m (a + BitVec.ofNat w i) = b

def span (a : BitVec w) (n : ℕ) : Set (BitVec w) := {x | ∃ i < n, x = a + BitVec.ofNat w i}

def Yields (m : Memory w β) (S : Set (BitVec w)) (x : Look w β ε α) (v : α) : Prop :=
  ∀ trace, ∃ reads, x ⟨m, trace⟩ = (.ok v, ⟨m, trace ++ reads⟩) ∧ ∀ read ∈ reads, read.request ∈ S

theorem offset_offset (a : BitVec w) (i j : ℕ) :
    a + BitVec.ofNat w i + BitVec.ofNat w j = a + BitVec.ofNat w (i + j) := by
  rw [BitVec.ofNat_add, BitVec.add_assoc]

theorem span_shift {a : BitVec w} {o k n : ℕ} (h : o + k ≤ n) :
    span (a + BitVec.ofNat w o) k ⊆ span a n := by
  intro x hx
  obtain ⟨i, hi, rfl⟩ := hx
  exact ⟨o + i, by omega, offset_offset a o i⟩

theorem Holds.shift {m : Memory w β} {a : BitVec w} {bs : List β} (h : Holds m a bs) (o : ℕ) :
    Holds m (a + BitVec.ofNat w o) (bs.drop o) := by
  intro i b hb
  rw [List.getElem?_drop] at hb
  rw [offset_offset]
  exact h (o + i) b hb

theorem Holds.take {m : Memory w β} {a : BitVec w} {bs : List β} (h : Holds m a bs) (n : ℕ) :
    Holds m a (bs.take n) := by
  intro i b hb
  rw [List.getElem?_take] at hb
  split_ifs at hb
  exact h i b hb

theorem Holds.head {m : Memory w β} {a : BitVec w} {b : β} {bs : List β} (h : Holds m a (b :: bs)) :
    m a = b := by
  have hb := h 0 b rfl
  rwa [BitVec.add_zero] at hb

theorem mem_span_self (a : BitVec w) {n : ℕ} (h : 0 < n) : a ∈ span a n :=
  ⟨0, h, (BitVec.add_zero a).symm⟩

namespace Yields

variable {m : Memory w β} {S T : Set (BitVec w)}

theorem pure (v : α) : Yields m S (pure v : Look w β ε α) v :=
  fun trace => ⟨[], by simp, by simp⟩

theorem lift_ok (v : α) : Yields m S (Sys.lift (.ok v) : Look w β ε α) v := pure v

theorem mono {x : Look w β ε α} {v : α} (h : Yields m S x v) (hsub : S ⊆ T) : Yields m T x v := by
  intro trace
  obtain ⟨reads, hrun, hin⟩ := h trace
  exact ⟨reads, hrun, fun read hread => hsub (hin read hread)⟩

theorem bind {x : Look w β ε α} {f : α → Look w β ε γ} {v : α} {u : γ} (hx : Yields m S x v)
    (hf : Yields m S (f v) u) : Yields m S (x >>= f) u := by
  intro trace
  obtain ⟨first, hrun, hfirst⟩ := hx trace
  obtain ⟨second, hrest, hsecond⟩ := hf (trace ++ first)
  refine ⟨first ++ second, ?_, fun read hread => ?_⟩
  · rw [Sys.bind_of_ok hrun, hrest, List.append_assoc]
  · rcases List.mem_append.mp hread with hread | hread
    · exact hfirst read hread
    · exact hsecond read hread

theorem orReturn {f : α → Look w β ε (Option γ)} {g : α → Option γ} {o : Option α}
    (h : ∀ a ∈ o, Yields m S (f a) (g a)) : Yields m S (orReturn o f) (o.bind g) := by
  cases o with
  | none => exact pure none
  | some a => exact h a rfl

theorem peek {a : BitVec w} (ha : a ∈ S) : Yields m S (peek a : Look w β ε β) (m a) := by
  intro trace
  refine ⟨[⟨a, .ok (m a)⟩], Sys.call_of_reply rfl, fun read hread => ?_⟩
  rw [List.mem_singleton.mp hread]
  exact ha

theorem peek_head {a : BitVec w} {b : β} {bs : List β} (h : Holds m a (b :: bs)) (ha : a ∈ S) :
    Yields m S (MemoryReads.peek a : Look w β ε β) b := by
  rw [← h.head]
  exact peek ha

theorem peekRun {bs : List β} {a : BitVec w} (h : Holds m a bs) :
    Yields m (span a bs.length) (peekRun a bs.length : Look w β ε (List β)) bs := by
  induction bs generalizing a with
  | nil => exact pure []
  | cons b bs ih =>
    have hlen : 1 + bs.length ≤ (b :: bs).length := (Nat.add_comm 1 _).le
    exact (peek_head h (mem_span_self a (Nat.succ_pos _))).bind
      (((ih (h.shift 1)).mono (span_shift hlen)).bind (pure _))

theorem run {bs : List β} {a : BitVec w} (h : Holds m a bs) {o n : ℕ} (hle : o + n ≤ bs.length) :
    Yields m (span a bs.length) (MemoryReads.peekRun (a + BitVec.ofNat w o) n : Look w β ε (List β))
      ((bs.drop o).take n) := by
  have hlen : ((bs.drop o).take n).length = n := by
    rw [List.length_take, List.length_drop]
    omega
  have hrun : Yields m _ (MemoryReads.peekRun _ _ : Look w β ε (List β)) _ :=
    peekRun ((h.shift o).take n)
  rw [hlen] at hrun
  exact hrun.mono (span_shift hle)

theorem foldlM {f : σ → ι → Look w β ε σ} {g : σ → ι → σ} {is : List ι}
    (h : ∀ s, ∀ i ∈ is, Yields m S (f s i) (g s i)) (s : σ) :
    Yields m S (is.foldlM f s) (is.foldl g s) := by
  induction is generalizing s with
  | nil => exact pure s
  | cons i is ih =>
    rw [List.foldlM_cons, List.foldl_cons]
    exact (h s i List.mem_cons_self).bind
      (ih (fun t j hj => h t j (List.mem_cons_of_mem i hj)) (g s i))

theorem firstSome {f : ι → Look w β ε (Option γ)} {g : ι → Option γ} {is : List ι}
    (h : ∀ i ∈ is, Yields m S (f i) (g i)) :
    Yields m S (Sys.firstSome f is) (is.findSome? g) := by
  induction is with
  | nil => exact pure none
  | cons i is ih =>
    apply bind (h i List.mem_cons_self)
    rw [List.findSome?_cons]
    cases g i with
    | some c => exact pure (some c)
    | none => exact ih fun j hj => h j (List.mem_cons_of_mem i hj)

/-- A loop over a table that has no length of its own: the pass at the `i`-th
item goes on behind it or, at the item that ends the table, leaves with what was
gathered before it. -/
theorem loop_table {τ : Type} {body : σ → Look w β ε (Outcome.Pass σ τ)} {go : ι → Bool}
    {g : τ → ι → τ} {l : List ι} {fuel : ℕ} (pos : ℕ → τ → σ)
    (hbody : ∀ i item t, l[i]? = some item → Yields m S (body (pos i t))
      (if go item then .next (pos (i + 1) (g t item)) else .done t))
    (hstop : ∃ item ∈ l, go item = false) (hfuel : l.length ≤ fuel) (t : τ) :
    Yields m S (Sys.loop body fuel (pos 0 t)) ((l.takeWhile go).foldl g t) := by
  induction l generalizing pos fuel t with
  | nil =>
    obtain ⟨item, hitem, -⟩ := hstop
    exact absurd hitem List.not_mem_nil
  | cons a l ih =>
    obtain ⟨fuel, rfl⟩ : ∃ k, fuel = k + 1 :=
      ⟨fuel - 1, (Nat.sub_add_cancel ((Nat.succ_pos _).trans_le hfuel)).symm⟩
    have hfirst := hbody 0 a t rfl
    cases hgo : go a with
    | false =>
      rw [hgo, if_neg Bool.false_ne_true] at hfirst
      rw [List.takeWhile_cons_of_neg (by simp [hgo])]
      exact hfirst.bind (pure t)
    | true =>
      rw [hgo, if_pos rfl] at hfirst
      obtain ⟨item, hitem, hend⟩ := hstop
      have hl : ∃ item ∈ l, go item = false := by
        refine ⟨item, (List.mem_cons.mp hitem).resolve_left fun h => ?_, hend⟩
        rw [h, hgo] at hend
        exact Bool.noConfusion hend
      rw [List.takeWhile_cons_of_pos hgo]
      exact hfirst.bind (ih (fun i => pos (i + 1)) (fun i => hbody (i + 1)) hl
        (Nat.le_of_succ_le_succ hfuel) (g t a))

end Yields

theorem foldl_first (part : σ → Option γ) {g : σ → ι → σ} (p : ι → Bool) (f : ι → γ)
    (hstep : ∀ s a, part (g s a) = if p a ∧ part s = none then some (f a) else part s)
    (l : List ι) (s : σ) : part (l.foldl g s) = (part s).or ((l.find? p).map f) := by
  induction l generalizing s with
  | nil => simp
  | cons a l ih =>
    rw [List.foldl_cons, ih, hstep, List.find?_cons]
    cases part s <;> cases p a <;> simp

theorem foldl_last (part : σ → Option γ) {g : σ → ι → σ} (p : ι → Bool) (f : ι → γ)
    (hstep : ∀ s a, part (g s a) = if p a then some (f a) else part s)
    (l : List ι) (s : σ) : part (l.foldl g s) = ((l.reverse.find? p).map f).or (part s) := by
  induction l generalizing s with
  | nil => simp
  | cons a l ih =>
    rw [List.foldl_cons, ih, hstep, List.reverse_cons, List.find?_append, List.find?_singleton]
    cases l.reverse.find? p <;> cases p a <;> simp

theorem find?_reverse_of_countP_le_one {p : ι → Bool} {l : List ι} (h : l.countP p ≤ 1) :
    l.reverse.find? p = l.find? p := by
  induction l with
  | nil => rfl
  | cons a l ih =>
    rw [List.countP_cons] at h
    rw [List.reverse_cons, List.find?_append, ih (by omega), List.find?_singleton, List.find?_cons]
    cases hp : p a with
    | true =>
      have hnone : l.find? p = none := by
        rw [List.find?_eq_none]
        intro b hb
        rw [hp, if_pos rfl] at h
        exact List.countP_eq_zero.mp (by omega) b hb
      simp [hnone]
    | false => simp

theorem findSome?_ite (p : ι → Prop) [DecidablePred p] (f : ι → γ) (l : List ι) :
    l.findSome? (fun a => if p a then some (f a) else none) = (l.find? (p ·)).map f := by
  induction l with
  | nil => rfl
  | cons a l ih =>
    rw [List.findSome?_cons, List.find?_cons, ih]
    by_cases hp : p a <;> simp [hp]

end RustyLibc.MemoryReads
