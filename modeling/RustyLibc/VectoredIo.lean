import RustyLibc.MemorySegments
import RustyLibc.StructLayout
import RustyLibc.SyscallReturn

/-!
# Vectored reads and writes (`fd.rs`)

`readv`, `writev` and their positional forms hand the kernel an array of
`IoSlice`s, which it reads as an array of `iovec`s. The documentation promises
what `read` and `write` do with one buffer that the segments add up to. The kernel
follows readv(2) and pread(2): the descriptor and the position are looked at first,
then the array, and segments that add up to nothing end the call before the file
sees it. Whether the descriptor is open for the transfer is looked at before the
array or after it, as the version of the kernel has it: `lookup` is what is refused
before, `access` what is refused after. What a file does with a run of bytes is up
to the file.
-/

namespace RustyLibc.Fd.Vectored
open ByteOrder MemoryReads HeapBlocks StructLayout Linux

abbrev Mem := Memory 64 UInt8

inductive Way where
  | read
  | write

/-- A file: what it does with bytes, at a position or at its own offset. -/
structure File (σ : Type) where
  lookup : Way → Option (BitVec 64) → Option SysErr
  access : Way → Option SysErr
  write : Option (BitVec 64) → List UInt8 → σ → Except SysErr ℕ × σ
  read : Option (BitVec 64) → ℕ → σ → Except SysErr (List UInt8) × σ
  read_le : ∀ {pos n s bs s'}, read pos n s = (.ok bs, s') → bs.length ≤ n

variable {σ : Type} (e : Endian) (F : File σ)

def maxRwCount : ℕ := 0x7ffff000
def uioMaxiov : ℕ := 1024

def posFromHilo (high low : BitVec 64) : BitVec 64 := (high <<< 32) <<< 32 ||| low

def rawCount : Except SysErr ℕ → BitVec 64
  | .ok n => countRet n
  | .error reason => reason.raw

def File.barred (way : Way) (pos : Option (BitVec 64)) : Option SysErr :=
  if pos.any BitVec.msb then some .EINVAL else F.lookup way pos

def sysWrite (m : Mem) (pos : Option (BitVec 64)) (buf count : BitVec 64) (s : σ) :
    BitVec 64 × σ :=
  match (F.barred .write pos).or (F.access .write) with
  | some reason => (reason.raw, s)
  | none =>
    let (r, s) := F.write pos (bytesAt m buf (min count.toNat maxRwCount)) s
    (rawCount r, s)

def sysRead (m : Mem) (pos : Option (BitVec 64)) (buf count : BitVec 64) (s : σ) :
    BitVec 64 × Mem × σ :=
  match (F.barred .read pos).or (F.access .read) with
  | some reason => (reason.raw, m, s)
  | none =>
    match F.read pos (min count.toNat maxRwCount) s with
    | (.ok bs, s) => (countRet bs.length, HeapBlocks.write m buf bs, s)
    | (.error reason, s) => (reason.raw, m, s)

def readIovec (m : Mem) : ℕ → BitVec 64 → List (Block 64)
  | 0, _ => []
  | n + 1, a =>
    let bytes := bytesAt m a 16
    ⟨.ofNat 64 (fieldAt e bytes 0 8), fieldAt e bytes 8 8⟩ :: readIovec m n (a + 16)

def importIovec (m : Mem) (iov iovcnt : BitVec 64) : Except SysErr (List (Block 64)) :=
  if uioMaxiov < iovcnt.toNat then .error .EINVAL
  else
    let segments := readIovec e m iovcnt.toNat iov
    if segments.any fun b => decide (2 ^ 63 ≤ b.size) then .error .EINVAL else .ok segments

def sysWritev (m : Mem) (pos : Option (BitVec 64)) (iov iovcnt : BitVec 64) (s : σ) :
    BitVec 64 × σ :=
  match F.barred .write pos with
  | some reason => (reason.raw, s)
  | none =>
    match importIovec e m iov iovcnt with
    | .error reason => (reason.raw, s)
    | .ok segments =>
      match F.access .write with
      | some reason => (reason.raw, s)
      | none =>
        if total segments = 0 then (0, s)
        else
          let (r, s) := F.write pos ((gather m segments).take maxRwCount) s
          (rawCount r, s)

def sysReadv (m : Mem) (pos : Option (BitVec 64)) (iov iovcnt : BitVec 64) (s : σ) :
    BitVec 64 × Mem × σ :=
  match F.barred .read pos with
  | some reason => (reason.raw, m, s)
  | none =>
    match importIovec e m iov iovcnt with
    | .error reason => (reason.raw, m, s)
    | .ok segments =>
      match F.access .read with
      | some reason => (reason.raw, m, s)
      | none =>
        if total segments = 0 then (0, m, s)
        else
          match F.read pos (min (total segments) maxRwCount) s with
          | (.ok bs, s) => (countRet bs.length, scatter m segments bs, s)
          | (.error reason, s) => (reason.raw, m, s)

def IoSlice.new (buf : Block 64) : List Field := [⟨8, buf.start.toNat⟩, ⟨8, buf.size⟩]

/-- A `&[IoSlice]`: an array in memory, and slices that it borrows. -/
structure IoSlices (m : Mem) where
  ptr : BitVec 64
  bufs : List (Block 64)
  laid : Holds m ptr (bufs.flatMap fun b => image e (IoSlice.new b))
  count_lt : bufs.length < 2 ^ 59
  size_lt : ∀ b ∈ bufs, b.size < 2 ^ 63

structure IoSlicesMut (m : Mem) extends IoSlices e m where
  apart : bufs.Pairwise Apart

def writeAt (m : Mem) (pos : Option (BitVec 64)) (buf : Block 64) (s : σ) : Except Errno ℕ × σ :=
  let (ret, s) := sysWrite F m pos buf.start (.ofNat 64 buf.size) s
  ((fromRet ret).map BitVec.toNat, s)

def readAt (m : Mem) (pos : Option (BitVec 64)) (buf : Block 64) (s : σ) :
    Except Errno ℕ × Mem × σ :=
  let (ret, m, s) := sysRead F m pos buf.start (.ofNat 64 buf.size) s
  ((fromRet ret).map BitVec.toNat, m, s)

def writevAt {m : Mem} (pos : Option (BitVec 64)) (bufs : IoSlices e m) (s : σ) :
    Except Errno ℕ × σ :=
  let (ret, s) := sysWritev e F m pos bufs.ptr (.ofNat 64 bufs.bufs.length) s
  ((fromRet ret).map BitVec.toNat, s)

def readvAt {m : Mem} (pos : Option (BitVec 64)) (bufs : IoSlicesMut e m) (s : σ) :
    Except Errno ℕ × Mem × σ :=
  let (ret, m, s) := sysReadv e F m pos bufs.ptr (.ofNat 64 bufs.bufs.length) s
  ((fromRet ret).map BitVec.toNat, m, s)

def write (m : Mem) (buf : Block 64) (s : σ) := writeAt F m none buf s
def pwrite (m : Mem) (buf : Block 64) (offset : BitVec 64) (s : σ) :=
  writeAt F m (some offset) buf s
def read (m : Mem) (buf : Block 64) (s : σ) := readAt F m none buf s
def pread (m : Mem) (buf : Block 64) (offset : BitVec 64) (s : σ) :=
  readAt F m (some offset) buf s

def writev {m : Mem} (bufs : IoSlices e m) (s : σ) := writevAt e F none bufs s
def readv {m : Mem} (bufs : IoSlicesMut e m) (s : σ) := readvAt e F none bufs s

def pwritev {m : Mem} (bufs : IoSlices e m) (offset : BitVec 64) (s : σ) :=
  writevAt e F (some (posFromHilo 0 offset)) bufs s

def preadv {m : Mem} (bufs : IoSlicesMut e m) (offset : BitVec 64) (s : σ) :=
  readvAt e F (some (posFromHilo 0 offset)) bufs s

theorem readIovec_laid {m : Mem} {a : BitVec 64} {bufs : List (Block 64)}
    (h : Holds m a (bufs.flatMap fun b => image e (IoSlice.new b)))
    (hsize : ∀ b ∈ bufs, b.size < 2 ^ 63) : readIovec e m bufs.length a = bufs := by
  induction bufs generalizing a with
  | nil => rfl
  | cons b bufs ih =>
    have hlen : (image e (IoSlice.new b)).length = 16 := length_image e (IoSlice.new b)
    rw [List.flatMap_cons] at h
    have hfirst := h.take 16
    rw [List.take_left' hlen] at hfirst
    have hrest := h.shift 16
    rw [List.drop_left' hlen] at hrest
    have hbytes : bytesAt m a 16 = image e (IoSlice.new b) := by
      rw [← hlen]
      exact bytesAt_of_holds hfirst
    have hstart : fieldAt e (image e (IoSlice.new b)) 0 8 = b.start.toNat :=
      fieldAt_getElem e 0 rfl rfl b.start.isLt
    have hsized : fieldAt e (image e (IoSlice.new b)) 8 8 = b.size :=
      fieldAt_getElem e 1 rfl rfl ((hsize b List.mem_cons_self).trans (by decide))
    rw [List.length_cons, readIovec, hbytes, hstart, hsized, BitVec.ofNat_toNat,
      BitVec.setWidth_eq]
    exact congrArg (List.cons b) (ih hrest fun b' hb' => hsize b' (List.mem_cons_of_mem b hb'))

theorem importIovec_eq {m : Mem} (bufs : IoSlices e m) :
    importIovec e m bufs.ptr (.ofNat 64 bufs.bufs.length) =
      if uioMaxiov < bufs.bufs.length then .error .EINVAL else .ok bufs.bufs := by
  have hcount : (BitVec.ofNat 64 bufs.bufs.length).toNat = bufs.bufs.length := by
    have hlt := bufs.count_lt
    rw [BitVec.toNat_ofNat, Nat.mod_eq_of_lt (by omega)]
  have hsmall : (bufs.bufs.any fun b => decide (2 ^ 63 ≤ b.size)) = false := by
    apply List.any_eq_false.mpr
    intro b hb
    have hlt := bufs.size_lt b hb
    simpa using hlt
  rw [importIovec, hcount, readIovec_laid e bufs.laid bufs.size_lt]
  dsimp only
  rw [hsmall]
  rfl

theorem posFromHilo_zero (low : BitVec 64) : posFromHilo 0 low = low := by
  simp [posFromHilo]

theorem toNat_size {c : Block 64} (hc : c.size < 2 ^ 63) :
    (BitVec.ofNat 64 c.size).toNat = c.size := by
  rw [BitVec.toNat_ofNat, Nat.mod_eq_of_lt (by omega)]

theorem clipped (m : Mem) (c : Block 64) :
    bytesAt m c.start (min c.size maxRwCount) = (c.bytes m).take maxRwCount := by
  have hlen : (c.bytes m).length = c.size := length_bytesAt m c.start c.size
  rcases Nat.le_total c.size maxRwCount with hle | hle
  · rw [Nat.min_eq_left hle, List.take_of_length_le (hlen.le.trans hle)]
    rfl
  · rw [Nat.min_eq_right hle]
    exact (take_bytesAt m c.start hle).symm

/-- The array is read, and has more segments than the kernel takes. -/
def File.Crowded (way : Way) (pos : Option (BitVec 64)) (bufs : List (Block 64)) : Prop :=
  F.barred way pos = none ∧ uioMaxiov < bufs.length

/-- The array is taken, the file may be used, and there is nothing to transfer. -/
def File.Idle (way : Way) (pos : Option (BitVec 64)) (bufs : List (Block 64)) : Prop :=
  F.barred way pos = none ∧ bufs.length ≤ uioMaxiov ∧ F.access way = none ∧ total bufs = 0

section Calls

variable {m m' : Mem} {c : Block 64} (pos : Option (BitVec 64)) (s : σ)

theorem total_of_bytes {bufs : List (Block 64)} (hsame : c.bytes m' = gather m bufs) :
    total bufs = c.size := by
  rw [← length_gather m, ← hsame]
  exact length_bytesAt ..

structure SameWrite (pos : Option (BitVec 64)) (bufs : List (Block 64)) (s : σ)
    (vectored plain : Except Errno ℕ × σ) : Prop where
  crowded : F.Crowded .write pos bufs → vectored = (.error .EINVAL, s)
  idle : F.Idle .write pos bufs → vectored = (.ok 0, s)
  plain : ¬ F.Crowded .write pos bufs → ¬ F.Idle .write pos bufs → vectored = plain

theorem sameWrite {bufs : IoSlices e m} (hc : c.size < 2 ^ 63)
    (hsame : c.bytes m' = gather m bufs.bufs) :
    SameWrite F pos bufs.bufs s (writevAt e F pos bufs s) (writeAt F m' pos c s) := by
  rw [writevAt, writeAt, sysWritev, sysWrite, importIovec_eq, toNat_size hc, clipped, hsame]
  cases hbarred : F.barred .write pos with
  | some reason =>
    refine ⟨fun h => ?_, fun h => ?_, fun _ _ => rfl⟩
    · exact absurd (hbarred.symm.trans h.1) (Option.some_ne_none reason)
    · exact absurd (hbarred.symm.trans h.1) (Option.some_ne_none reason)
  | none =>
    by_cases hmany : uioMaxiov < bufs.bufs.length
    · rw [if_pos hmany]
      refine ⟨fun _ => ?_, fun h => absurd hmany (Nat.not_lt.mpr h.2.1),
        fun h => absurd ⟨hbarred, hmany⟩ h⟩
      dsimp only
      rw [fromRet_raw]
      rfl
    rw [if_neg hmany, Option.none_or]
    cases haccess : F.access .write with
    | some reason =>
      refine ⟨fun h => absurd h.2 hmany, fun h => ?_, fun _ _ => rfl⟩
      exact absurd (haccess.symm.trans h.2.2.1) (Option.some_ne_none reason)
    | none =>
      dsimp only
      refine ⟨fun h => absurd h.2 hmany, fun h => ?_, fun _ h => ?_⟩
      · rw [if_pos h.2.2.2]
        rfl
      · rw [if_neg fun hzero => h ⟨hbarred, Nat.not_lt.mp hmany, haccess, hzero⟩]

structure SameRead (pos : Option (BitVec 64)) (bufs : List (Block 64)) (c : Block 64) (m : Mem)
    (s : σ) (vectored plain : Except Errno ℕ × Mem × σ) : Prop where
  crowded : F.Crowded .read pos bufs → vectored = (.error .EINVAL, m, s)
  idle : F.Idle .read pos bufs → vectored = (.ok 0, m, s)
  result : ¬ F.Crowded .read pos bufs → ¬ F.Idle .read pos bufs →
    vectored.1 = plain.1 ∧ vectored.2.2 = plain.2.2 ∧
      gather vectored.2.1 bufs = c.bytes plain.2.1
  frame : ∀ x, (∀ b ∈ bufs, x ∉ b.cells) → vectored.2.1 x = m x

theorem sameRead {bufs : IoSlicesMut e m} (hc : c.size < 2 ^ 63)
    (hsame : c.bytes m' = gather m bufs.bufs) :
    SameRead F pos bufs.bufs c m s (readvAt e F pos bufs s) (readAt F m' pos c s) := by
  have htotal := total_of_bytes hsame
  rw [readvAt, readAt, sysReadv, sysRead, importIovec_eq, toNat_size hc]
  cases hbarred : F.barred .read pos with
  | some reason =>
    refine ⟨fun h => ?_, fun h => ?_, fun _ _ => ⟨rfl, rfl, hsame.symm⟩, fun _ _ => rfl⟩
    · exact absurd (hbarred.symm.trans h.1) (Option.some_ne_none reason)
    · exact absurd (hbarred.symm.trans h.1) (Option.some_ne_none reason)
  | none =>
    by_cases hmany : uioMaxiov < bufs.bufs.length
    · rw [if_pos hmany]
      refine ⟨fun _ => ?_, fun h => absurd hmany (Nat.not_lt.mpr h.2.1),
        fun h => absurd ⟨hbarred, hmany⟩ h, fun _ _ => rfl⟩
      dsimp only
      rw [fromRet_raw]
      rfl
    rw [if_neg hmany, Option.none_or]
    cases haccess : F.access .read with
    | some reason =>
      refine ⟨fun h => absurd h.2 hmany, fun h => ?_, fun _ _ => ⟨rfl, rfl, hsame.symm⟩,
        fun _ _ => rfl⟩
      exact absurd (haccess.symm.trans h.2.2.1) (Option.some_ne_none reason)
    | none =>
      dsimp only
      by_cases hzero : total bufs.bufs = 0
      · rw [if_pos hzero]
        exact ⟨fun h => absurd h.2 hmany, fun _ => rfl,
          fun _ h => absurd ⟨hbarred, Nat.not_lt.mp hmany, haccess, hzero⟩ h, fun _ _ => rfl⟩
      rw [if_neg hzero, htotal]
      rcases hread : F.read pos (min c.size maxRwCount) s with ⟨r, s'⟩
      cases r with
      | error reason =>
        exact ⟨fun h => absurd h.2 hmany, fun h => absurd h.2.2.2 hzero,
          fun _ _ => ⟨rfl, rfl, hsame.symm⟩, fun _ _ => rfl⟩
      | ok bs =>
        have hbs : bs.length ≤ c.size := (F.read_le hread).trans (Nat.min_le_left _ _)
        have hwide : ∀ b ∈ bufs.bufs, b.size ≤ 2 ^ 64 := fun b hb =>
          (bufs.size_lt b hb).le.trans (by decide)
        have hleft : gather (scatter m bufs.bufs bs) bufs.bufs =
            c.bytes (HeapBlocks.write m' c.start bs) := by
          rw [gather_scatter bufs.apart hwide (hbs.trans htotal.ge), ← hsame]
          exact (bytesAt_write m' c.start hbs (by omega)).symm
        exact ⟨fun h => absurd h.2 hmany, fun h => absurd h.2.2.2 hzero,
          fun _ _ => ⟨rfl, rfl, hleft⟩, fun x hx => scatter_of_notMem hx⟩

end Calls

def lastWritten : File (List UInt8) where
  lookup := fun _ _ => none
  access := fun _ => none
  write := fun _ bs _ => (.ok bs.length, bs)
  read := fun _ n bs => (.ok (bs.take n), bs)
  read_le := by
    intro pos n s bs s' h
    obtain ⟨hbs, -⟩ := Prod.mk.inj h
    rw [← Except.ok.inj hbs]
    exact List.length_take_le _ _

def threeAndTwo : List (Block 64) := [⟨16, 3⟩, ⟨8, 2⟩]

def segmented : Mem := HeapBlocks.write (fun a => UInt8.ofNat a.toNat) 64
  (threeAndTwo.flatMap fun b => image .little (IoSlice.new b))

def twoSegments : IoSlicesMut .little segmented where
  ptr := 64
  bufs := threeAndTwo
  laid := holds_write _ _ (by decide)
  count_lt := by decide
  size_lt := by decide
  apart := by
    refine List.pairwise_cons.mpr ⟨fun b hb x hx hxb => ?_, List.pairwise_singleton _ _⟩
    rw [List.mem_singleton.mp hb] at hxb
    obtain ⟨i, hi, rfl⟩ := hx
    obtain ⟨j, hj, heq⟩ := hxb
    have hi : i < 3 := hi
    have hj : j < 2 := hj
    have hnat : (16 + i % 2 ^ 64) % 2 ^ 64 = (8 + j % 2 ^ 64) % 2 ^ 64 := by
      have hcast := congrArg BitVec.toNat heq
      rwa [BitVec.toNat_add, BitVec.toNat_add, BitVec.toNat_ofNat, BitVec.toNat_ofNat] at hcast
    omega

def fiveBlock : Block 64 := ⟨0, 5⟩

def fiveMem : Mem := HeapBlocks.write (fun _ => 0) 0 [16, 17, 18, 8, 9]

end RustyLibc.Fd.Vectored
