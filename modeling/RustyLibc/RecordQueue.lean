import Mathlib.Data.List.TakeDrop

/-!
# Whole records out of a queue

A device keeps records in a queue and answers a read with whole records only:
some of those at the front that fit into the room it is given, at least one if
the first fits, never a part of one. `wish` is how many more than one it cares
to hand over.

A queue that drops a record equal to the last one in it leaves every record with
the number of its repetitions unsaid: `Repeats`.
-/

namespace RustyLibc.RecordQueue

variable {ι β α : Type} {enc : ι → List β} {room wish : ℕ} {queue : List ι}

/-- How many records at the front take up at most `room` elements together. -/
def fitting (enc : ι → List β) : ℕ → List ι → ℕ
  | _, [] => 0
  | room, x :: queue =>
    if (enc x).length ≤ room then fitting enc (room - (enc x).length) queue + 1 else 0

def batch (enc : ι → List β) (wish room : ℕ) (queue : List ι) : List ι :=
  queue.take (min (wish + 1) (fitting enc room queue))

def FirstFits (enc : ι → List β) (room : ℕ) (queue : List ι) : Prop :=
  ∃ x rest, queue = x :: rest ∧ (enc x).length ≤ room

theorem length_take_fitting {n : ℕ} (h : n ≤ fitting enc room queue) :
    ((queue.take n).flatMap enc).length ≤ room := by
  induction queue generalizing room n with
  | nil => simp
  | cons x queue ih =>
    cases n with
    | zero => simp
    | succ n =>
      rw [fitting] at h
      have hx : (enc x).length ≤ room := by
        by_contra hbig
        rw [if_neg hbig] at h
        exact Nat.not_succ_le_zero n h
      rw [if_pos hx] at h
      have htail := ih (Nat.le_of_succ_le_succ h)
      rw [List.take_succ_cons, List.flatMap_cons, List.length_append]
      omega

theorem length_batch_le : ((batch enc wish room queue).flatMap enc).length ≤ room :=
  length_take_fitting (Nat.min_le_right _ _)

theorem batch_append_drop :
    batch enc wish room queue ++ queue.drop (batch enc wish room queue).length = queue := by
  have hpre : batch enc wish room queue <+: queue := List.take_prefix _ _
  exact List.prefix_iff_eq_append.mp hpre

theorem batch_ne_nil (h : FirstFits enc room queue) : batch enc wish room queue ≠ [] := by
  obtain ⟨x, rest, rfl, hx⟩ := h
  rw [batch, fitting, if_pos hx, Nat.add_min_add_right, List.take_succ_cons]
  exact List.cons_ne_nil _ _

theorem batch_eq_nil (h : ¬ FirstFits enc room queue) : batch enc wish room queue = [] := by
  cases queue with
  | nil => simp [batch]
  | cons x rest =>
    have hx : ¬ (enc x).length ≤ room := fun hle => h ⟨x, rest, rfl, hle⟩
    rw [batch, fitting, if_neg hx, Nat.min_zero, List.take_zero]

theorem length_take_fitting_succ {y : ι} {rest : List ι}
    (h : queue = queue.take (fitting enc room queue) ++ y :: rest) :
    room < ((queue.take (fitting enc room queue) ++ [y]).flatMap enc).length := by
  induction queue generalizing room with
  | nil => simp [fitting] at h
  | cons x queue ih =>
    rw [fitting] at h ⊢
    by_cases hx : (enc x).length ≤ room
    · rw [if_pos hx, List.take_succ_cons, List.cons_append, List.cons.injEq] at h
      have htail := ih h.2
      rw [if_pos hx, List.take_succ_cons, List.cons_append, List.flatMap_cons, List.length_append]
      omega
    · rw [if_neg hx, List.take_zero, List.nil_append, List.cons.injEq] at h
      rw [if_neg hx, List.take_zero, List.nil_append, ← h.1, List.flatMap_singleton]
      exact Nat.not_le.mp hx

theorem fitting_le : fitting enc room queue ≤ queue.length := by
  induction queue generalizing room with
  | nil => exact Nat.le_refl _
  | cons x queue ih =>
    rw [fitting]
    split_ifs
    · exact Nat.succ_le_succ ih
    · exact Nat.zero_le _

theorem batch_all_eq : batch enc queue.length room queue = queue.take (fitting enc room queue) := by
  have hle : fitting enc room queue ≤ queue.length + 1 := Nat.le_succ_of_le fitting_le
  rw [batch, Nat.min_eq_right hle]

theorem batch_all_most {y : ι} {rest : List ι}
    (h : queue = batch enc queue.length room queue ++ y :: rest) :
    room < ((batch enc queue.length room queue ++ [y]).flatMap enc).length := by
  rw [batch_all_eq] at h ⊢
  exact length_take_fitting_succ h

theorem batch_all (h : (queue.flatMap enc).length ≤ room) :
    batch enc queue.length room queue = queue := by
  cases hleft : queue.drop (batch enc queue.length room queue).length with
  | nil =>
    have hsplit : batch enc queue.length room queue ++ _ = queue := batch_append_drop
    rwa [hleft, List.append_nil] at hsplit
  | cons y rest =>
    have hsplit : batch enc queue.length room queue ++ _ = queue := batch_append_drop
    rw [hleft] at hsplit
    have hmost := batch_all_most hsplit.symm
    have hlen := congrArg (fun l => (l.flatMap enc).length) hsplit
    simp only [List.flatMap_append, List.flatMap_cons, List.flatMap_nil, List.length_append,
      List.append_nil] at hmost hlen
    omega

/-- `full` is `short` with every element repeated any number of times. -/
inductive Repeats : List α → List α → Prop
  | nil : Repeats [] []
  | new {short full : List α} (x : α) : Repeats short full → Repeats (short ++ [x]) (full ++ [x])
  | again {short full : List α} (x : α) : Repeats (short ++ [x]) full →
      Repeats (short ++ [x]) (full ++ [x])

end RustyLibc.RecordQueue
