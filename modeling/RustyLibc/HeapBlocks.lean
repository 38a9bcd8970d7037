import RustyLibc.MemoryReads

/-!
# Blocks of memory

A heap is a memory and the blocks of it that are in use. An allocator places a
block clear of those in use or fails; what is written into a new block leaves the
others as they are.
-/

namespace RustyLibc.HeapBlocks
open MemoryReads

variable {w : ℕ} {β : Type}

structure Block (w : ℕ) where
  start : BitVec w
  size : ℕ

def Block.cells (b : Block w) : Set (BitVec w) := span b.start b.size

def write (m : Memory w β) (a : BitVec w) : List β → Memory w β
  | [] => m
  | b :: bs => Function.update (write m (a + 1) bs) a b

theorem write_of_notMem {m : Memory w β} {a x : BitVec w} {bs : List β}
    (h : x ∉ span a bs.length) : write m a bs x = m x := by
  induction bs generalizing a with
  | nil => rfl
  | cons b bs ih =>
    have hne : x ≠ a := by
      rintro rfl
      exact h (mem_span_self x (Nat.succ_pos _))
    rw [write, Function.update_of_ne hne]
    refine ih fun hmem => h ?_
    have hlen : 1 + bs.length ≤ (b :: bs).length := (Nat.add_comm 1 _).le
    exact span_shift hlen hmem

theorem holds_write (m : Memory w β) (a : BitVec w) {bs : List β} (h : bs.length ≤ 2 ^ w) :
    Holds (write m a bs) a bs := by
  induction bs generalizing a with
  | nil =>
    intro i b hb
    cases hb
  | cons c bs ih =>
    intro i b hb
    cases i with
    | zero =>
      rw [write, BitVec.add_zero, Function.update_self]
      exact Option.some.inj hb
    | succ i =>
      obtain ⟨hi, -⟩ := List.getElem?_eq_some_iff.mp hb
      rw [List.length_cons] at h hi
      have hne : a + BitVec.ofNat w (i + 1) ≠ a := by
        intro heq
        have hzero : BitVec.ofNat w (i + 1) = 0 := BitVec.add_right_eq_self.mp heq
        have hnat := congrArg BitVec.toNat hzero
        rw [BitVec.toNat_ofNat, Nat.mod_eq_of_lt (by omega)] at hnat
        exact Nat.succ_ne_zero i hnat
      have hrest := ih (a + 1) (by omega) i b hb
      have hoffset : a + 1 + BitVec.ofNat w i = a + BitVec.ofNat w (i + 1) :=
        (offset_offset a 1 i).trans (by rw [Nat.add_comm])
      rw [write, Function.update_of_ne hne, ← hoffset]
      exact hrest

theorem holds_of_agree {m m' : Memory w β} {a : BitVec w} {bs : List β} (h : Holds m a bs)
    (hagree : ∀ x ∈ span a bs.length, m' x = m x) : Holds m' a bs := by
  intro i b hb
  obtain ⟨hi, -⟩ := List.getElem?_eq_some_iff.mp hb
  rw [hagree _ ⟨i, hi, rfl⟩]
  exact h i b hb

structure Allocator (w : ℕ) where
  place : List (Block w) → ℕ → Option (BitVec w)
  clear : ∀ {live size a}, place live size = some a →
    a ≠ 0 ∧ size ≤ 2 ^ w ∧ ∀ b ∈ live, ∀ x ∈ span a size, x ∉ b.cells

/-- The blocks in use once blocks of these sizes have been placed in turn. -/
def Allocator.fill (A : Allocator w) : List (Block w) → List ℕ → Option (List (Block w))
  | live, [] => some live
  | live, size :: sizes => (A.place live size).bind fun a => A.fill (⟨a, size⟩ :: live) sizes

theorem Allocator.fill_append (A : Allocator w) (live : List (Block w)) (sizes sizes' : List ℕ) :
    A.fill live (sizes ++ sizes') = (A.fill live sizes).bind fun live' => A.fill live' sizes' := by
  induction sizes generalizing live with
  | nil => rfl
  | cons size sizes ih =>
    rw [List.cons_append, fill, fill, Option.bind_assoc]
    exact Option.bind_congr fun a _ => ih (⟨a, size⟩ :: live)

structure Heap (w : ℕ) (β : Type) where
  memory : Memory w β
  live : List (Block w)

def Heap.alloc (A : Allocator w) (h : Heap w β) (bs : List β) : Option (Block w × Heap w β) :=
  (A.place h.live bs.length).map fun a =>
    (⟨a, bs.length⟩, ⟨write h.memory a bs, ⟨a, bs.length⟩ :: h.live⟩)

theorem alloc_cases (A : Allocator w) (h : Heap w β) (bs : List β) :
    (∃ b h', h.alloc A bs = some (b, h') ∧ A.fill h.live [bs.length] = some h'.live) ∨
      (h.alloc A bs = none ∧ A.fill h.live [bs.length] = none) := by
  cases hplace : A.place h.live bs.length with
  | some a => exact Or.inl ⟨_, _, by rw [Heap.alloc, hplace]; rfl, by rw [Allocator.fill, hplace]; rfl⟩
  | none => exact Or.inr ⟨by rw [Heap.alloc, hplace]; rfl, by rw [Allocator.fill, hplace]; rfl⟩

/-- What was in use is in use still, with the same contents. -/
def Keeps (h h' : Heap w β) : Prop :=
  ∀ b ∈ h.live, b ∈ h'.live ∧ ∀ x ∈ b.cells, h'.memory x = h.memory x

theorem Keeps.refl (h : Heap w β) : Keeps h h := fun _ hb => ⟨hb, fun _ _ => rfl⟩

theorem Keeps.trans {h₁ h₂ h₃ : Heap w β} (h₁₂ : Keeps h₁ h₂) (h₂₃ : Keeps h₂ h₃) :
    Keeps h₁ h₃ := by
  intro b hb
  obtain ⟨hmem, hsame⟩ := h₁₂ b hb
  obtain ⟨hmem', hsame'⟩ := h₂₃ b hmem
  exact ⟨hmem', fun x hx => (hsame' x hx).trans (hsame x hx)⟩

def Owns (h : Heap w β) (b : Block w) (bs : List β) : Prop :=
  b ∈ h.live ∧ b.size = bs.length ∧ Holds h.memory b.start bs

theorem Owns.of_keeps {h h' : Heap w β} {b : Block w} {bs : List β} (how : Owns h b bs)
    (hkeeps : Keeps h h') : Owns h' b bs := by
  obtain ⟨hmem, hsize, hholds⟩ := how
  obtain ⟨hmem', hsame⟩ := hkeeps b hmem
  refine ⟨hmem', hsize, holds_of_agree hholds fun x hx => hsame x ?_⟩
  rw [Block.cells, hsize]
  exact hx

theorem alloc_spec {A : Allocator w} {h h' : Heap w β} {bs : List β} {b : Block w}
    (hal : h.alloc A bs = some (b, h')) : b.start ≠ 0 ∧ Owns h' b bs ∧ Keeps h h' := by
  obtain ⟨a, ha, heq⟩ := Option.map_eq_some_iff.mp hal
  obtain ⟨rfl, rfl⟩ := Prod.mk.inj heq
  obtain ⟨hne, hsize, hclear⟩ := A.clear ha
  refine ⟨hne, ⟨List.mem_cons_self, rfl, holds_write h.memory a hsize⟩, fun b hb => ?_⟩
  refine ⟨List.mem_cons_of_mem _ hb, fun x hx => write_of_notMem fun hmem => ?_⟩
  exact hclear b hb x hmem hx

end RustyLibc.HeapBlocks
