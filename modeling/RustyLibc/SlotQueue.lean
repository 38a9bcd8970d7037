import Mathlib.Data.List.Basic
import Mathlib.Order.Basic

/-!
# A first-in first-out queue served once a slot

Items arrive in slots and wait in one queue; each slot serves the item at the
front, if there is one. The slot in which an item is served follows from the
arrivals alone: in order of arrival, an item's turn comes in the slot it arrived
in or right after the turn of the item before it, whichever is later.
-/

namespace RustyLibc.SlotQueue

variable {α : Type}

/-- The turns of items stamped with their slots of arrival, the first free slot
being `free`. -/
def turns (free : ℕ) : List (ℕ × α) → List (ℕ × α)
  | [] => []
  | (s, a) :: l => (max s free, a) :: turns (max s free + 1) l

def upcoming (arrivals : ℕ → List α) (d : ℕ) : ℕ → List (ℕ × α)
  | 0 => []
  | n + 1 => (arrivals d).map (d, ·) ++ upcoming arrivals (d + 1) n

def backlog (arrivals : ℕ → List α) (d : ℕ) (queue : List α) (n : ℕ) : List (ℕ × α) :=
  queue.map (d, ·) ++ upcoming arrivals d n

theorem mem_turns {free t : ℕ} {a : α} {l : List (ℕ × α)} (h : (t, a) ∈ turns free l) :
    free ≤ t ∧ ∃ s ≤ t, (s, a) ∈ l := by
  induction l generalizing free with
  | nil => simp [turns] at h
  | cons x l ih =>
    obtain ⟨s, b⟩ := x
    rw [turns, List.mem_cons] at h
    rcases h with h | h
    · obtain ⟨rfl, rfl⟩ := Prod.mk.inj h
      exact ⟨Nat.le_max_right _ _, s, Nat.le_max_left _ _, List.mem_cons_self⟩
    · obtain ⟨hfree, r, hr, hmem⟩ := ih h
      have hle := Nat.le_max_right s free
      exact ⟨by omega, r, hr, List.mem_cons_of_mem _ hmem⟩

theorem mem_upcoming {arrivals : ℕ → List α} {d n s : ℕ} {a : α}
    (h : (s, a) ∈ upcoming arrivals d n) : d ≤ s ∧ a ∈ arrivals s := by
  induction n generalizing d with
  | zero => simp [upcoming] at h
  | succ n ih =>
    rw [upcoming, List.mem_append, List.mem_map] at h
    rcases h with ⟨b, hb, heq⟩ | h
    · obtain ⟨rfl, rfl⟩ := Prod.mk.inj heq
      exact ⟨Nat.le_refl _, hb⟩
    · obtain ⟨hle, hmem⟩ := ih h
      exact ⟨by omega, hmem⟩

theorem turns_restamp {free s s' : ℕ} (hs : s ≤ free) (hs' : s' ≤ free) (l : List α)
    (rest : List (ℕ × α)) :
    turns free (l.map (s, ·) ++ rest) = turns free (l.map (s', ·) ++ rest) := by
  induction l generalizing free with
  | nil => rfl
  | cons a l ih =>
    simp only [List.map_cons, List.cons_append, turns, Nat.max_eq_right hs, Nat.max_eq_right hs']
    rw [ih (by omega) (by omega)]

theorem turns_idle {free free' : ℕ} {l : List (ℕ × α)} (hle : free ≤ free')
    (h : ∀ s a, (s, a) ∈ l → free' ≤ s) : turns free l = turns free' l := by
  cases l with
  | nil => rfl
  | cons x l =>
    obtain ⟨s, a⟩ := x
    have hs := h s a List.mem_cons_self
    rw [turns, turns, Nat.max_eq_left (by omega), Nat.max_eq_left hs]

theorem backlog_succ (arrivals : ℕ → List α) (d : ℕ) (queue : List α) (n : ℕ) :
    backlog arrivals d queue (n + 1) =
      (queue ++ arrivals d).map (d, ·) ++ upcoming arrivals (d + 1) n := by
  simp [backlog, upcoming]

theorem turns_backlog_nil {arrivals : ℕ → List α} {d : ℕ} {queue : List α}
    (h : queue ++ arrivals d = []) (n : ℕ) :
    turns d (backlog arrivals d queue (n + 1)) =
      turns (d + 1) (backlog arrivals (d + 1) [] n) := by
  rw [backlog_succ, h]
  exact turns_idle (Nat.le_succ d) fun s a hs => (mem_upcoming hs).1

theorem turns_backlog_cons {arrivals : ℕ → List α} {d : ℕ} {queue rest : List α} {a : α}
    (h : queue ++ arrivals d = a :: rest) (n : ℕ) :
    turns d (backlog arrivals d queue (n + 1)) =
      (d, a) :: turns (d + 1) (backlog arrivals (d + 1) rest n) := by
  rw [backlog_succ, h, List.map_cons, List.cons_append, turns, Nat.max_self,
    turns_restamp (Nat.le_succ d) (Nat.le_refl _)]
  rfl

end RustyLibc.SlotQueue
