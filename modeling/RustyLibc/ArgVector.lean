import Mathlib.Data.List.Forall2
import RustyLibc.ByteOrder
import RustyLibc.HeapBlocks

/-!
# Argument vectors (`process.rs`, `CStrArray`)

`CStrArray::new` copies strings to the heap, each ended by a NUL, and puts their
addresses, ended by a null pointer, into one more block. `execve` hands the
address of that block to the kernel, which reads pointers up to the null pointer
and behind each of them bytes up to the NUL. The reader here does the same. The
blocks a `Vec` uses on the way are not followed, and an allocation that fails
ends the process.
-/

namespace RustyLibc.Process
open ByteOrder MemoryReads HeapBlocks HostCalls

abbrev Bytes := List UInt8

structure NulError where
  position : ℕ
  bytes : Bytes
  deriving DecidableEq, Repr

variable (e : Endian) (A : Allocator 64)

def allocated {ε : Type} (result : Option (Block 64 × Heap 64 UInt8)) :
    Outcome ε (Block 64 × Heap 64 UInt8) :=
  match result with
  | some r => .ok r
  | none => .panic

def cstringNew (h : Heap 64 UInt8) (s : Bytes) : Outcome NulError (Block 64 × Heap 64 UInt8) :=
  match s.findIdx? (· == 0) with
  | some i => .err ⟨i, s⟩
  | none => allocated (h.alloc A (s ++ [0]))

def collectCStrings (h : Heap 64 UInt8) :
    List Bytes → Outcome NulError (List (Block 64) × Heap 64 UInt8)
  | [] => pure ([], h)
  | s :: strings => do
    let (b, h) ← cstringNew A h s
    let (owned, h) ← collectCStrings h strings
    pure (b :: owned, h)

structure CStrArray where
  owned : List (Block 64)
  ptrs : Block 64

def pointerBytes (ptrs : List (BitVec 64)) : Bytes := ptrs.flatMap fun p => neBytes e 8 p.toNat

def CStrArray.new (h : Heap 64 UInt8) (strings : List Bytes) :
    Outcome NulError (CStrArray × Heap 64 UInt8) := do
  let (owned, h) ← collectCStrings A h strings
  let ptrs := owned.map Block.start ++ [0]
  let (b, h) ← allocated (h.alloc A (pointerBytes e ptrs))
  pure (⟨owned, b⟩, h)

def CStrArray.asPtr (arr : CStrArray) : BitVec 64 := arr.ptrs.start

def CStrArray.cells (arr : CStrArray) : Set (BitVec 64) :=
  {x | ∃ b ∈ arr.ptrs :: arr.owned, x ∈ b.cells}

def readCStr : ℕ → BitVec 64 → Look 64 UInt8 Empty Bytes
  | 0, _ => Sys.lift .diverge
  | fuel + 1, a => do
    let b ← peek a
    if b = 0 then pure []
    else do
      let bs ← readCStr fuel (a + 1)
      pure (b :: bs)

def readVector (len : ℕ) : ℕ → BitVec 64 → Look 64 UInt8 Empty (List Bytes)
  | 0, _ => Sys.lift .diverge
  | fuel + 1, a => do
    let bytes ← peekRun a 8
    let p := BitVec.ofNat 64 (neVal e bytes)
    if p = 0 then pure []
    else do
      let s ← readCStr len p
      let rest ← readVector len fuel (a + 8)
      pure (s :: rest)

theorem readCStr_holds {m : Memory 64 UInt8} {s : Bytes} {a : BitVec 64}
    (h : Holds m a (s ++ [0])) (hnul : 0 ∉ s) {fuel : ℕ} (hfuel : s.length < fuel) :
    Yields m (span a (s ++ [0]).length) (readCStr fuel a) s := by
  induction s generalizing a fuel with
  | nil =>
    obtain ⟨fuel, rfl⟩ : ∃ n, fuel = n + 1 := ⟨fuel - 1, by omega⟩
    exact (Yields.peek_head h (mem_span_self a (Nat.succ_pos _))).bind (.pure [])
  | cons b s ih =>
    obtain ⟨fuel, rfl⟩ : ∃ n, fuel = n + 1 := ⟨fuel - 1, by omega⟩
    rw [List.mem_cons, not_or] at hnul
    refine (Yields.peek_head h (mem_span_self a (Nat.succ_pos _))).bind ?_
    rw [if_neg (Ne.symm hnul.1)]
    have hlen : 1 + (s ++ [0]).length ≤ (b :: s ++ [0]).length := (Nat.add_comm 1 _).le
    have hrest := (ih (h.shift 1) hnul.2 (Nat.lt_of_succ_lt_succ hfuel)).mono (span_shift hlen)
    exact hrest.bind (.pure _)

theorem pointerBytes_cons (p : BitVec 64) (ps : List (BitVec 64)) :
    pointerBytes e (p :: ps) = neBytes e 8 p.toNat ++ pointerBytes e ps :=
  rfl

theorem readPointer {m : Memory 64 UInt8} {a p : BitVec 64} {ps : List (BitVec 64)}
    (h : Holds m a (pointerBytes e (p :: ps))) :
    Yields m (span a 8) (peekRun a 8 : Look 64 UInt8 Empty Bytes) (neBytes e 8 p.toNat) ∧
      BitVec.ofNat 64 (neVal e (neBytes e 8 p.toNat)) = p ∧
      Holds m (a + 8) (pointerBytes e ps) := by
  have hlen : (neBytes e 8 p.toNat).length = 8 := length_neBytes e 8 p.toNat
  refine ⟨?_, ?_, ?_⟩
  · have hfirst := h.take 8
    rw [pointerBytes_cons, List.take_left' hlen] at hfirst
    have hrun : Yields m _ (peekRun _ _ : Look 64 UInt8 Empty Bytes) _ := Yields.peekRun hfirst
    rwa [hlen] at hrun
  · rw [neVal_neBytes_of_lt e p.isLt, BitVec.ofNat_toNat, BitVec.setWidth_eq]
  · have hrest := h.shift 8
    rwa [pointerBytes_cons, List.drop_left' hlen] at hrest

def Stored (m : Memory 64 UInt8) (S : Set (BitVec 64)) (p : BitVec 64) (s : Bytes) : Prop :=
  p ≠ 0 ∧ 0 ∉ s ∧ Holds m p (s ++ [0]) ∧ span p (s ++ [0]).length ⊆ S

theorem readVector_holds {m : Memory 64 UInt8} {S : Set (BitVec 64)}
    {ps : List (BitVec 64)} {strings : List Bytes} (hstored : List.Forall₂ (Stored m S) ps strings)
    {a : BitVec 64} (htable : Holds m a (pointerBytes e (ps ++ [0])))
    (hS : span a (pointerBytes e (ps ++ [0])).length ⊆ S) {len fuel : ℕ}
    (hlen : ∀ s ∈ strings, s.length < len) (hfuel : strings.length < fuel) :
    Yields m S (readVector e len fuel a) strings := by
  induction hstored generalizing a fuel with
  | nil =>
    obtain ⟨fuel, rfl⟩ : ∃ n, fuel = n + 1 := ⟨fuel - 1, by omega⟩
    obtain ⟨hread, hval, -⟩ := readPointer e htable
    have hspan : span a 8 ⊆ S := by
      have hall : (pointerBytes e ([] ++ [0])).length = 8 := by simp [pointerBytes]
      rwa [hall] at hS
    refine (hread.mono hspan).bind ?_
    dsimp only
    rw [hval, if_pos rfl]
    exact .pure []
  | @cons p s ps strings hfirst _ ih =>
    obtain ⟨fuel, rfl⟩ : ∃ n, fuel = n + 1 := ⟨fuel - 1, by omega⟩
    obtain ⟨hne, hnul, hholds, hcells⟩ := hfirst
    obtain ⟨hread, hval, hrest⟩ := readPointer e htable
    have hsize : 8 + (pointerBytes e (ps ++ [0])).length =
        (pointerBytes e (p :: ps ++ [0])).length := by
      rw [List.cons_append, pointerBytes_cons, List.length_append, length_neBytes]
    have hspan : span a 8 ⊆ S := by
      refine Set.Subset.trans ?_ hS
      intro x hx
      obtain ⟨i, hi, rfl⟩ := hx
      exact ⟨i, by omega, rfl⟩
    have htail : span (a + 8) (pointerBytes e (ps ++ [0])).length ⊆ S :=
      (span_shift (o := 8) hsize.le).trans hS
    refine (hread.mono hspan).bind ?_
    dsimp only
    rw [hval, if_neg hne]
    have hstring := (readCStr_holds hholds hnul (hlen s List.mem_cons_self)).mono hcells
    have hlater := ih hrest htail (fun t ht => hlen t (List.mem_cons_of_mem s ht))
      (Nat.lt_of_succ_lt_succ hfuel)
    exact hstring.bind (hlater.bind (.pure _))

theorem notMem_of_findIdx?_none {s : Bytes} (h : s.findIdx? (· == 0) = none) : 0 ∉ s := by
  intro hmem
  have hall := List.findIdx?_eq_none_iff.mp h 0 hmem
  cases hall

theorem allocated_eq_ok {ε : Type} {result : Option (Block 64 × Heap 64 UInt8)}
    {r : Block 64 × Heap 64 UInt8} (h : (allocated result : Outcome ε _) = .ok r) :
    result = some r := by
  cases result with
  | none => cases h
  | some r' => exact congrArg some (Outcome.ok.inj h)

theorem cstringNew_ok {h h' : Heap 64 UInt8} {s : Bytes} {b : Block 64}
    (hnew : cstringNew A h s = .ok (b, h')) :
    0 ∉ s ∧ b.start ≠ 0 ∧ Owns h' b (s ++ [0]) ∧ Keeps h h' := by
  unfold cstringNew at hnew
  cases hfind : s.findIdx? (· == 0) with
  | some i =>
    rw [hfind] at hnew
    cases hnew
  | none =>
    rw [hfind] at hnew
    exact ⟨notMem_of_findIdx?_none hfind, alloc_spec (allocated_eq_ok hnew)⟩

def Copied (h : Heap 64 UInt8) (b : Block 64) (s : Bytes) : Prop :=
  0 ∉ s ∧ b.start ≠ 0 ∧ Owns h b (s ++ [0])

theorem collectCStrings_ok {h h' : Heap 64 UInt8} {strings : List Bytes} {owned : List (Block 64)}
    (hnew : collectCStrings A h strings = .ok (owned, h')) :
    Keeps h h' ∧ List.Forall₂ (Copied h') owned strings := by
  induction strings generalizing h owned with
  | nil =>
    cases hnew
    exact ⟨Keeps.refl _, .nil⟩
  | cons s strings ih =>
    rw [collectCStrings, Outcome.bind_eq_ok] at hnew
    obtain ⟨⟨b, h₁⟩, hfirst, hnew⟩ := hnew
    obtain ⟨⟨bs, h₂⟩, hrest, hnew⟩ := Outcome.bind_eq_ok.mp hnew
    cases hnew
    obtain ⟨hnul, hne, howns, hkeeps⟩ := cstringNew_ok A hfirst
    obtain ⟨hkeeps', hall⟩ := ih hrest
    exact ⟨hkeeps.trans hkeeps', .cons ⟨hnul, hne, howns.of_keeps hkeeps'⟩ hall⟩

theorem copied_mem {h : Heap 64 UInt8} {owned : List (Block 64)} {strings : List Bytes}
    (hall : List.Forall₂ (Copied h) owned strings) :
    (∀ s ∈ strings, 0 ∉ s) ∧ ∀ b ∈ owned, b ∈ h.live := by
  induction hall with
  | nil => simp
  | cons hfirst _ ih =>
    exact ⟨List.forall_mem_cons.mpr ⟨hfirst.1, ih.1⟩,
      List.forall_mem_cons.mpr ⟨hfirst.2.2.1, ih.2⟩⟩

theorem stored_of_copied {h : Heap 64 UInt8} {m : Memory 64 UInt8} {S : Set (BitVec 64)}
    {owned : List (Block 64)} {strings : List Bytes}
    (hall : List.Forall₂ (Copied h) owned strings) (hS : ∀ b ∈ owned, b.cells ⊆ S)
    (hm : ∀ x ∈ S, m x = h.memory x) :
    List.Forall₂ (Stored m S) (owned.map Block.start) strings := by
  induction hall with
  | nil => exact .nil
  | @cons b s owned strings hfirst _ ih =>
    obtain ⟨hnul, hne, -, hsize, hholds⟩ := hfirst
    have hcells : span b.start (s ++ [0]).length ⊆ S := by
      rw [← hsize]
      exact hS b List.mem_cons_self
    refine .cons ⟨hne, hnul, ?_, hcells⟩ (ih fun c hc => hS c (List.mem_cons_of_mem b hc))
    exact holds_of_agree hholds fun x hx => hm x (hcells hx)

/-- The room that copies of these strings take up. -/
def wanted (strings : List Bytes) : List ℕ := strings.map fun s => s.length + 1

theorem wanted_cons (s : Bytes) (strings : List Bytes) :
    wanted (s :: strings) = [(s ++ [0]).length] ++ wanted strings := by
  simp [wanted]

/-- How building the array ends. The first string with a NUL in it is reported with
the place of its first NUL, if there is memory for the strings before it; strings
without a NUL are built into an array if there is memory for them and the table. -/
structure NewEnds {α : Type} (live : List (Block 64)) (strings : List Bytes)
    (out : Outcome NulError α) : Prop where
  nul : ∀ pre s post i, strings = pre ++ s :: post → (∀ t ∈ pre, 0 ∉ t) → s[i]? = some 0 →
    0 ∉ s.take i → out = if (A.fill live (wanted pre)).isSome then .err ⟨i, s⟩ else .panic
  free : (∀ s ∈ strings, 0 ∉ s) →
    if (A.fill live (wanted strings ++ [8 * (strings.length + 1)])).isSome then ∃ a, out = .ok a
    else out = .panic

theorem cstringNew_free {h : Heap 64 UInt8} {s : Bytes} (hs : 0 ∉ s) :
    (∃ b h', cstringNew A h s = .ok (b, h') ∧ A.fill h.live [(s ++ [0]).length] = some h'.live) ∨
      (cstringNew A h s = .panic ∧ A.fill h.live [(s ++ [0]).length] = none) := by
  have hfind : s.findIdx? (· == 0) = none := by
    refine List.findIdx?_eq_none_iff.mpr fun b hb => ?_
    simpa using fun hzero : b = 0 => hs (hzero ▸ hb)
  rw [cstringNew, hfind]
  rcases alloc_cases A h (s ++ [0]) with ⟨b, h', hal, hfill⟩ | ⟨hal, hfill⟩
  · exact Or.inl ⟨b, h', by rw [hal]; rfl, hfill⟩
  · exact Or.inr ⟨by rw [hal]; rfl, hfill⟩

theorem cstringNew_nul (h : Heap 64 UInt8) {s : Bytes} {i : ℕ} (hzero : s[i]? = some 0)
    (hfirst : 0 ∉ s.take i) : cstringNew A h s = .err ⟨i, s⟩ := by
  obtain ⟨hi, hget⟩ := List.getElem?_eq_some_iff.mp hzero
  have hfind : s.findIdx? (· == 0) = some i := by
    refine List.findIdx?_eq_some_iff_getElem.mpr ⟨hi, by simp [hget], fun j hj => ?_⟩
    intro hbefore
    apply hfirst
    refine List.mem_iff_getElem.mpr ⟨j, by rw [List.length_take]; omega, ?_⟩
    rw [List.getElem_take]
    simpa using hbefore
  rw [cstringNew, hfind]

theorem collectCStrings_free (h : Heap 64 UInt8) {strings : List Bytes}
    (hfree : ∀ s ∈ strings, 0 ∉ s) :
    (∃ owned h', collectCStrings A h strings = .ok (owned, h') ∧
        owned.length = strings.length ∧ A.fill h.live (wanted strings) = some h'.live) ∨
      (collectCStrings A h strings = .panic ∧ A.fill h.live (wanted strings) = none) := by
  induction strings generalizing h with
  | nil => exact Or.inl ⟨[], h, rfl, rfl, rfl⟩
  | cons s strings ih =>
    rw [List.forall_mem_cons] at hfree
    rw [collectCStrings, wanted_cons, Allocator.fill_append]
    rcases cstringNew_free A (h := h) hfree.1 with ⟨b, h₁, hnew, hfill⟩ | ⟨hnew, hfill⟩
    · rw [hnew, hfill]
      rcases ih h₁ hfree.2 with ⟨owned, h', hrest, hlen, hfill'⟩ | ⟨hrest, hfill'⟩
      · refine Or.inl ⟨b :: owned, h', ?_, congrArg Nat.succ hlen, hfill'⟩
        simp only [Outcome.ok_bind, hrest]
        rfl
      · refine Or.inr ⟨?_, hfill'⟩
        simp only [Outcome.ok_bind, hrest]
        rfl
    · rw [hnew, hfill]
      exact Or.inr ⟨rfl, rfl⟩

theorem collectCStrings_nul (h : Heap 64 UInt8) {pre post : List Bytes} {s : Bytes} {i : ℕ}
    (hpre : ∀ t ∈ pre, 0 ∉ t) (hzero : s[i]? = some 0) (hfirst : 0 ∉ s.take i) :
    collectCStrings A h (pre ++ s :: post) =
      if (A.fill h.live (wanted pre)).isSome then .err ⟨i, s⟩ else .panic := by
  induction pre generalizing h with
  | nil =>
    rw [List.nil_append, collectCStrings, cstringNew_nul A h hzero hfirst]
    rfl
  | cons t pre ih =>
    rw [List.forall_mem_cons] at hpre
    rw [List.cons_append, collectCStrings, wanted_cons, Allocator.fill_append]
    rcases cstringNew_free A (h := h) hpre.1 with ⟨b, h₁, hnew, hfill⟩ | ⟨hnew, hfill⟩
    · rw [hnew, hfill, Outcome.ok_bind]
      dsimp only
      rw [ih h₁ hpre.2, Option.bind_some]
      split_ifs <;> rfl
    · rw [hnew, hfill]
      rfl

theorem length_pointerBytes (ps : List (BitVec 64)) :
    (pointerBytes e ps).length = 8 * ps.length := by
  induction ps with
  | nil => rfl
  | cons p ps ih =>
    rw [pointerBytes_cons, List.length_append, length_neBytes, ih, List.length_cons]
    omega

theorem newEnds (h : Heap 64 UInt8) (strings : List Bytes) :
    NewEnds A h.live strings (CStrArray.new e A h strings) where
  nul := by
    rintro pre s post i rfl hpre hzero hfirst
    rw [CStrArray.new, collectCStrings_nul A h hpre hzero hfirst]
    split_ifs <;> rfl
  free hfree := by
    rw [Allocator.fill_append, CStrArray.new]
    rcases collectCStrings_free A h hfree with ⟨owned, h₁, hnew, hlen, hfill⟩ | ⟨hnew, hfill⟩
    · have htable : (pointerBytes e (owned.map Block.start ++ [0])).length =
          8 * (strings.length + 1) := by
        rw [length_pointerBytes, List.length_append, List.length_map, hlen]
        rfl
      rw [hnew, hfill, Outcome.ok_bind, Option.bind_some]
      dsimp only
      rcases alloc_cases A h₁ (pointerBytes e (owned.map Block.start ++ [0])) with
        ⟨b, h', hal, hfill'⟩ | ⟨hal, hfill'⟩
      · rw [htable] at hfill'
        rw [hfill', hal, if_pos Option.isSome_some]
        exact ⟨_, rfl⟩
      · rw [htable] at hfill'
        rw [hfill', hal, if_neg (by simp)]
        rfl
    · rw [hnew, hfill]
      rfl

def lastStop (live : List (Block 64)) : ℕ :=
  live.foldr (fun b stop => max (b.start.toNat + b.size) stop) 0

theorem le_lastStop {live : List (Block 64)} {b : Block 64} (hb : b ∈ live) :
    b.start.toNat + b.size ≤ lastStop live := by
  induction live with
  | nil => cases hb
  | cons c live ih =>
    rcases List.mem_cons.mp hb with rfl | hb
    · exact Nat.le_max_left _ _
    · exact (ih hb).trans (Nat.le_max_right _ _)

theorem toNat_of_mem_span {a x : BitVec 64} {n : ℕ} (hx : x ∈ span a n)
    (hn : a.toNat + n ≤ 2 ^ 64) :
    a.toNat ≤ x.toNat ∧ x.toNat < a.toNat + n := by
  obtain ⟨i, hi, rfl⟩ := hx
  have hnat : (a + BitVec.ofNat 64 i).toNat = a.toNat + i := by
    rw [BitVec.toNat_add, BitVec.toNat_ofNat, Nat.mod_eq_of_lt (by omega : i < 2 ^ 64),
      Nat.mod_eq_of_lt (by omega)]
  omega

/-- An allocator that never looks back. -/
def bump : Allocator 64 where
  place live size :=
    if lastStop live + 1 + size < 2 ^ 64 then some (BitVec.ofNat 64 (lastStop live + 1)) else none
  clear := by
    intro live size a ha
    split_ifs at ha with hroom
    cases ha
    have hstart : (BitVec.ofNat 64 (lastStop live + 1)).toNat = lastStop live + 1 := by
      rw [BitVec.toNat_ofNat, Nat.mod_eq_of_lt (by omega)]
    refine ⟨fun hzero => ?_, by omega, fun b hb x hx hxb => ?_⟩
    · rw [hzero] at hstart
      exact absurd hstart (by simp)
    · have hstop := le_lastStop hb
      have hnew := toNat_of_mem_span hx (by omega)
      have hold := toNat_of_mem_span hxb (by omega)
      omega

end RustyLibc.Process
