import RustyLibc.HeapBlocks
import Mathlib.Data.List.TakeDrop

/-!
# Segments of memory

The contents of blocks that lie anywhere in memory, taken together in order, and
a run of bytes spread over them in the same order. Over blocks that do not
overlap the two are what reading and writing is for one block.
-/

namespace RustyLibc.HeapBlocks
open MemoryReads

variable {w : ℕ} {β : Type}

def bytesAt (m : Memory w β) (a : BitVec w) : ℕ → List β
  | 0 => []
  | n + 1 => m a :: bytesAt m (a + 1) n

def Block.bytes (m : Memory w β) (b : Block w) : List β := bytesAt m b.start b.size

def gather (m : Memory w β) (bufs : List (Block w)) : List β := bufs.flatMap (Block.bytes m)

def scatter (m : Memory w β) : List (Block w) → List β → Memory w β
  | [], _ => m
  | b :: bufs, bs => scatter (write m b.start (bs.take b.size)) bufs (bs.drop b.size)

def total (bufs : List (Block w)) : ℕ := (bufs.map Block.size).sum

theorem length_bytesAt (m : Memory w β) (a : BitVec w) (n : ℕ) : (bytesAt m a n).length = n := by
  induction n generalizing a with
  | zero => rfl
  | succ n ih => rw [bytesAt, List.length_cons, ih]

theorem length_gather (m : Memory w β) (bufs : List (Block w)) :
    (gather m bufs).length = total bufs := by
  induction bufs with
  | nil => rfl
  | cons b bufs ih =>
    rw [gather, List.flatMap_cons, List.length_append, Block.bytes, length_bytesAt, ← gather, ih]
    rfl

theorem getElem?_bytesAt (m : Memory w β) (a : BitVec w) {n i : ℕ} (hi : i < n) :
    (bytesAt m a n)[i]? = some (m (a + BitVec.ofNat w i)) := by
  induction n generalizing a i with
  | zero => exact absurd hi (Nat.not_lt_zero i)
  | succ n ih =>
    rw [bytesAt]
    cases i with
    | zero => rw [List.getElem?_cons_zero, BitVec.add_zero]
    | succ i =>
      have hshift : a + 1 + BitVec.ofNat w i = a + BitVec.ofNat w (i + 1) :=
        (offset_offset a 1 i).trans (by rw [Nat.add_comm])
      rw [List.getElem?_cons_succ, ih (a + 1) (Nat.lt_of_succ_lt_succ hi), hshift]

theorem bytesAt_of_holds {m : Memory w β} {a : BitVec w} {bs : List β} (h : Holds m a bs) :
    bytesAt m a bs.length = bs := by
  apply List.ext_getElem?
  intro i
  by_cases hi : i < bs.length
  · obtain ⟨b, hb⟩ : ∃ b, bs[i]? = some b := ⟨bs[i], List.getElem?_eq_getElem hi⟩
    rw [getElem?_bytesAt m a hi, hb, h i b hb]
  · rw [List.getElem?_eq_none (by rw [length_bytesAt]; omega),
      List.getElem?_eq_none (Nat.not_lt.mp hi)]

theorem bytesAt_congr {m m' : Memory w β} {a : BitVec w} {n : ℕ}
    (h : ∀ x ∈ span a n, m' x = m x) : bytesAt m' a n = bytesAt m a n := by
  apply List.ext_getElem?
  intro i
  by_cases hi : i < n
  · rw [getElem?_bytesAt m' a hi, getElem?_bytesAt m a hi, h _ ⟨i, hi, rfl⟩]
  · rw [List.getElem?_eq_none (by rw [length_bytesAt]; omega),
      List.getElem?_eq_none (by rw [length_bytesAt]; omega)]

theorem take_bytesAt (m : Memory w β) (a : BitVec w) {k n : ℕ} (h : k ≤ n) :
    (bytesAt m a n).take k = bytesAt m a k := by
  induction k generalizing a n with
  | zero => rfl
  | succ k ih =>
    obtain ⟨n, rfl⟩ : ∃ l, n = l + 1 := ⟨n - 1, by omega⟩
    rw [bytesAt, bytesAt, List.take_succ_cons, ih (a + 1) (Nat.le_of_succ_le_succ h)]

/-- What is written stands in front; behind it everything is as before. -/
theorem bytesAt_write (m : Memory w β) (a : BitVec w) {bs : List β} {n : ℕ}
    (hbs : bs.length ≤ n) (hn : n ≤ 2 ^ w) :
    bytesAt (write m a bs) a n = bs ++ (bytesAt m a n).drop bs.length := by
  apply List.ext_getElem?
  intro i
  by_cases hin : i < n
  · rw [getElem?_bytesAt _ a hin]
    by_cases hib : i < bs.length
    · have hholds := holds_write m a (hbs.trans hn) i bs[i] (List.getElem?_eq_getElem hib)
      rw [List.getElem?_append_left hib, List.getElem?_eq_getElem hib, hholds]
    · have hout : a + BitVec.ofNat w i ∉ span a bs.length := by
        rintro ⟨j, hj, heq⟩
        have hsame := congrArg BitVec.toNat ((BitVec.add_right_inj a).mp heq)
        rw [BitVec.toNat_ofNat, BitVec.toNat_ofNat, Nat.mod_eq_of_lt (by omega),
          Nat.mod_eq_of_lt (by omega)] at hsame
        omega
      rw [List.getElem?_append_right (Nat.not_lt.mp hib), List.getElem?_drop,
        Nat.add_sub_cancel' (Nat.not_lt.mp hib), getElem?_bytesAt m a hin, write_of_notMem hout]
  · rw [List.getElem?_eq_none (by rw [length_bytesAt]; omega), List.getElem?_eq_none]
    rw [List.length_append, List.length_drop, length_bytesAt]
    omega

def Apart (b b' : Block w) : Prop := ∀ x ∈ b.cells, x ∉ b'.cells

theorem write_take_of_notMem {m : Memory w β} {b : Block w} {bs : List β} {x : BitVec w}
    (h : x ∉ b.cells) : write m b.start (bs.take b.size) x = m x := by
  apply write_of_notMem
  rintro ⟨i, hi, rfl⟩
  exact h ⟨i, hi.trans_le (List.length_take_le _ _), rfl⟩

theorem scatter_of_notMem {m : Memory w β} {bufs : List (Block w)} {bs : List β} {x : BitVec w}
    (h : ∀ b ∈ bufs, x ∉ b.cells) : scatter m bufs bs x = m x := by
  induction bufs generalizing m bs with
  | nil => rfl
  | cons b bufs ih =>
    rw [scatter, ih fun b' hb' => h b' (List.mem_cons_of_mem b hb'),
      write_take_of_notMem (h b List.mem_cons_self)]

theorem gather_write {m : Memory w β} {b : Block w} {bufs : List (Block w)} {bs : List β}
    (h : ∀ b' ∈ bufs, Apart b b') :
    gather (write m b.start (bs.take b.size)) bufs = gather m bufs := by
  rw [gather, gather, List.flatMap_def, List.flatMap_def]
  refine congrArg List.flatten (List.map_congr_left fun b' hb' => ?_)
  refine bytesAt_congr fun x hx => write_take_of_notMem fun hxb => ?_
  exact h b' hb' x hxb hx

theorem bytes_scatter {m : Memory w β} {b : Block w} {bufs : List (Block w)} {bs : List β}
    (h : ∀ b' ∈ bufs, Apart b b') : b.bytes (scatter m bufs bs) = b.bytes m :=
  bytesAt_congr fun x hx => scatter_of_notMem fun b' hb' => h b' hb' x hx

/-- Over blocks that lie apart from each other, spreading and taking together is
what writing and reading is for one block. -/
theorem gather_scatter {m : Memory w β} {bufs : List (Block w)} {bs : List β}
    (hapart : bufs.Pairwise Apart) (hsize : ∀ b ∈ bufs, b.size ≤ 2 ^ w)
    (hbs : bs.length ≤ total bufs) :
    gather (scatter m bufs bs) bufs = bs ++ (gather m bufs).drop bs.length := by
  induction bufs generalizing m bs with
  | nil =>
    obtain rfl : bs = [] := List.length_eq_zero_iff.mp (Nat.le_zero.mp hbs)
    rfl
  | cons b bufs ih =>
    obtain ⟨hfirst, hrest⟩ := List.pairwise_cons.mp hapart
    have htotal : total (b :: bufs) = b.size + total bufs := rfl
    have hlen : (b.bytes m).length = b.size := length_bytesAt m b.start b.size
    have hblock : b.bytes (write m b.start (bs.take b.size)) =
        bs.take b.size ++ (b.bytes m).drop (bs.take b.size).length :=
      bytesAt_write m b.start (List.length_take_le _ _) (hsize b List.mem_cons_self)
    have hothers : gather (scatter (write m b.start (bs.take b.size)) bufs (bs.drop b.size)) bufs =
        _ := ih hrest (fun b' hb' => hsize b' (List.mem_cons_of_mem b hb'))
      (by rw [List.length_drop]; omega)
    rw [gather_write hfirst] at hothers
    have hsplit : gather (scatter m (b :: bufs) bs) (b :: bufs) =
        b.bytes (scatter m (b :: bufs) bs) ++ gather (scatter m (b :: bufs) bs) bufs := rfl
    have hwhole : gather m (b :: bufs) = b.bytes m ++ gather m bufs := rfl
    rw [hsplit, scatter, bytes_scatter hfirst, hblock, hothers, hwhole]
    -- the bytes end inside the first block, or they fill it
    rcases Nat.le_total bs.length b.size with hshort | hlong
    · rw [List.take_of_length_le hshort, List.drop_eq_nil_of_le hshort, List.length_nil,
        List.drop_zero, List.nil_append, List.drop_append_of_le_length (hlen.symm ▸ hshort),
        List.append_assoc]
    · have hnone : (b.bytes m).drop bs.length = [] := List.drop_eq_nil_of_le (hlen.le.trans hlong)
      rw [List.length_take_of_le hlong, List.drop_eq_nil_of_le hlen.le, List.append_nil,
        ← List.append_assoc, List.take_append_drop, List.length_drop, List.drop_append, hnone, hlen,
        List.nil_append]

end RustyLibc.HeapBlocks
