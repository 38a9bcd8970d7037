import RustyLibc.ByteOrder
import RustyLibc.MemoryReads
import RustyLibc.TextLines

/-!
# Looking up a symbol of the vDSO (`vdso.rs`)

`lookup` walks the program headers, the dynamic table, the hash table and the
symbols of an ELF image by address, relocating what the image says by raw
wrapping arithmetic. An `isize` is a word of 64 bits like a pointer, and the
function pointer it returns is the address it holds. The loop over the dynamic
table has no counter of its own; `passes` is the number of its passes that are
watched.
-/

namespace RustyLibc.Vdso
open ByteOrder HostCalls MemoryReads

abbrev Ptr := BitVec 64

abbrev Walk (α : Type) := Look 64 UInt8 Empty α

inductive Arch where
  | x86_64
  | aarch64
  deriving DecidableEq, Repr

def symbol : Arch → List UInt8
  | .x86_64 => Text.utf8 "__vdso_clock_gettime".toList
  | .aarch64 => Text.utf8 "__kernel_clock_gettime".toList

def eMachine : Arch → ℕ
  | .x86_64 => 62
  | .aarch64 => 183

def elfMagic : List UInt8 := [0x7f, 0x45, 0x4c, 0x46]

def ptLoad : ℕ := 1
def ptDynamic : ℕ := 2
def dtNull : ℤ := 0
def dtHash : ℤ := 4
def dtStrtab : ℤ := 5
def dtSymtab : ℤ := 6

/-- `rd_u16` and its siblings, by the number of bytes. -/
def rd (e : Endian) (p : Ptr) (off width : ℕ) : Walk ℕ := do
  let bs ← peekRun (p + BitVec.ofNat 64 off) width
  pure (neVal e bs)

def rdU16 (e : Endian) (p : Ptr) (off : ℕ) : Walk ℕ := rd e p off 2

def rdU32 (e : Endian) (p : Ptr) (off : ℕ) : Walk ℕ := rd e p off 4

def rdU64 (e : Endian) (p : Ptr) (off : ℕ) : Walk (BitVec 64) := do
  let n ← rd e p off 8
  pure (BitVec.ofNat 64 n)

def rdI64 (e : Endian) (p : Ptr) (off : ℕ) : Walk ℤ := do
  let n ← rd e p off 8
  pure (BitVec.ofNat 64 n).toInt

def reloc (base : Ptr) (loadOff vaddr : BitVec 64) : Ptr := base + (loadOff + vaddr)

def cstrEq (p : Ptr) : List UInt8 → Walk Bool
  | [] => do
    let b ← peek p
    pure (b == 0)
  | t :: target => do
    let b ← peek p
    if b ≠ t then pure false else cstrEq (p + 1) target

structure Segments where
  loadOff : Option (BitVec 64)
  dynamic : Option Ptr
  deriving DecidableEq, Repr

def Segments.record (base : Ptr) (found : Segments) (pType : ℕ) (pOffset pVaddr : BitVec 64) :
    Segments :=
  if pType = ptLoad ∧ found.loadOff = none then { found with loadOff := some (pOffset - pVaddr) }
  else if pType = ptDynamic then { found with dynamic := some (base + pOffset) }
  else found

def headerStep (e : Endian) (base : Ptr) (ePhoff ePhentsize : ℕ) (found : Segments) (i : ℕ) :
    Walk Segments := do
  let start ← Sys.lift (Outcome.uadd ePhoff (i * ePhentsize))
  let ph := base + BitVec.ofNat 64 start
  let pType ← rdU32 e ph 0
  let pOffset ← rdU64 e ph 8
  let pVaddr ← rdU64 e ph 16
  pure (found.record base pType pOffset pVaddr)

structure Tables where
  strtab : Option Ptr
  symtab : Option Ptr
  hash : Option Ptr
  deriving DecidableEq, Repr

def Tables.record (base : Ptr) (loadOff : BitVec 64) (found : Tables) (tag : ℤ) (val : BitVec 64) :
    Tables :=
  if tag = dtStrtab then { found with strtab := some (reloc base loadOff val) }
  else if tag = dtSymtab then { found with symtab := some (reloc base loadOff val) }
  else if tag = dtHash then { found with hash := some (reloc base loadOff val) }
  else found

def dynamicStep (e : Endian) (base : Ptr) (loadOff : BitVec 64) (st : Ptr × Tables) :
    Walk (Outcome.Pass (Ptr × Tables) Tables) := do
  let (d, found) := st
  let tag ← rdI64 e d 0
  if tag = dtNull then pure (.done found)
  else do
    let val ← rdU64 e d 8
    pure (.next (d + 16, found.record base loadOff tag val))

def symbolStep (arch : Arch) (e : Endian) (base : Ptr) (loadOff : BitVec 64) (strtab symtab : Ptr)
    (i : ℕ) : Walk (Option Ptr) := do
  let sym := symtab + BitVec.ofNat 64 (i * 24)
  let stName ← rdU32 e sym 0
  let stValue ← rdU64 e sym 8
  if stName = 0 ∨ stValue = 0 then pure none
  else do
    let same ← cstrEq (strtab + BitVec.ofNat 64 stName) (symbol arch)
    pure (if same then some (reloc base loadOff stValue) else none)

/-- The part of `lookup` after the program headers. -/
def searchTables (arch : Arch) (e : Endian) (passes : ℕ) (base : Ptr) (loadOff : BitVec 64)
    (dynamic : Ptr) : Walk (Option Ptr) := do
  let tables ← Sys.loop (dynamicStep e base loadOff) passes (dynamic, ⟨none, none, none⟩)
  orReturn tables.strtab fun strtab => orReturn tables.symtab fun symtab =>
    orReturn tables.hash fun hash => do
      let nsyms ← rdU32 e hash 4
      Sys.firstSome (symbolStep arch e base loadOff strtab symtab) (List.range nsyms)

/-- The part of `lookup` after the ELF header. -/
def searchHeaders (arch : Arch) (e : Endian) (passes : ℕ) (base : Ptr)
    (ePhoff ePhentsize ePhnum : ℕ) : Walk (Option Ptr) := do
  let found ← (List.range ePhnum).foldlM (headerStep e base ePhoff ePhentsize) ⟨none, none⟩
  orReturn found.loadOff fun loadOff => orReturn found.dynamic fun dynamic =>
    searchTables arch e passes base loadOff dynamic

def lookup (arch : Arch) (e : Endian) (passes : ℕ) (base : Ptr) : Walk (Option Ptr) := do
  let magic ← rdU32 e base 0
  if magic ≠ neVal e elfMagic then pure none else do
    let elfClass ← peek (base + 4)
    if elfClass ≠ 2 then pure none else do
      let machine ← rdU16 e base 18
      if machine ≠ eMachine arch then pure none else do
        let ePhoff ← rdU64 e base 32
        let ePhentsize ← rdU16 e base 54
        let ePhnum ← rdU16 e base 56
        if ePhentsize < 56 then pure none
        else searchHeaders arch e passes base ePhoff.toNat ePhentsize ePhnum

end RustyLibc.Vdso
