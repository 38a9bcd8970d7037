import RustyLibc.VdsoLookup

/-!
# What an ELF image says

The image is read here as a list of bytes: its program headers, the entries of
its dynamic table, its symbols and their names. Virtual addresses are placed in
the image by the first `PT_LOAD`. `resolved` is the entry point that the image
exports under the name looked for.
-/

namespace RustyLibc.Vdso
open ByteOrder HostCalls MemoryReads

def word (e : Endian) (img : List UInt8) (off width : ℕ) : ℕ := neVal e ((img.drop off).take width)

def word64 (e : Endian) (img : List UInt8) (off : ℕ) : BitVec 64 := BitVec.ofNat 64 (word e img off 8)

structure ProgramHeader where
  pType : ℕ
  pOffset : BitVec 64
  pVaddr : BitVec 64
  deriving DecidableEq, Repr

def programHeader (e : Endian) (img : List UInt8) (off : ℕ) : ProgramHeader :=
  ⟨word e img off 4, word64 e img (off + 8), word64 e img (off + 16)⟩

def phoff (e : Endian) (img : List UInt8) : ℕ := (word64 e img 32).toNat
def phentsize (e : Endian) (img : List UInt8) : ℕ := word e img 54 2
def phnum (e : Endian) (img : List UInt8) : ℕ := word e img 56 2

def programHeaders (e : Endian) (img : List UInt8) : List ProgramHeader :=
  (List.range (phnum e img)).map fun i => programHeader e img (phoff e img + i * phentsize e img)

def loadSegment (e : Endian) (img : List UInt8) : Option ProgramHeader :=
  (programHeaders e img).find? (·.pType = ptLoad)

/-- The last `PT_DYNAMIC`, should there be several. -/
def dynamicSegment (e : Endian) (img : List UInt8) : Option ProgramHeader :=
  (programHeaders e img).reverse.find? (·.pType = ptDynamic)

def ProgramHeader.place (load : ProgramHeader) (vaddr : BitVec 64) : ℕ :=
  (load.pOffset - load.pVaddr + vaddr).toNat

structure DynamicEntry where
  tag : ℤ
  val : BitVec 64
  deriving DecidableEq, Repr

def dynamicEntry (e : Endian) (img : List UInt8) (off : ℕ) : DynamicEntry :=
  ⟨(word64 e img off).toInt, word64 e img (off + 8)⟩

def dynamicEntries (e : Endian) (img : List UInt8) (off : ℕ) : List DynamicEntry :=
  (List.range ((img.length - off) / 16)).map fun i => dynamicEntry e img (off + i * 16)

def dynamicTable (e : Endian) (img : List UInt8) (off : ℕ) : List DynamicEntry :=
  (dynamicEntries e img off).takeWhile (·.tag ≠ dtNull)

def entryOf (table : List DynamicEntry) (tag : ℤ) : Option (BitVec 64) :=
  (table.find? (·.tag = tag)).map DynamicEntry.val

structure Symbol where
  stName : ℕ
  stValue : BitVec 64
  deriving DecidableEq, Repr

def symbolAt (e : Endian) (img : List UInt8) (off : ℕ) : Symbol :=
  ⟨word e img off 4, word64 e img (off + 8)⟩

def nchain (e : Endian) (img : List UInt8) (hash : ℕ) : ℕ := word e img (hash + 4) 4

def symbols (e : Endian) (img : List UInt8) (symtab n : ℕ) : List Symbol :=
  (List.range n).map fun i => symbolAt e img (symtab + i * 24)

def nameAt (img : List UInt8) (off : ℕ) : List UInt8 := (img.drop off).takeWhile (· ≠ 0)

def Symbol.Exports (arch : Arch) (img : List UInt8) (strtab : ℕ) (s : Symbol) : Prop :=
  s.stName ≠ 0 ∧ s.stValue ≠ 0 ∧ nameAt img (strtab + s.stName) = symbol arch

instance (arch : Arch) (img : List UInt8) (strtab : ℕ) (s : Symbol) :
    Decidable (s.Exports arch img strtab) :=
  inferInstanceAs (Decidable (_ ∧ _))

/-- The value of the first symbol that is exported under the name, moved to
where the image lies. -/
def exported (arch : Arch) (e : Endian) (base : Ptr) (img : List UInt8)
    (load dynamic : ProgramHeader) : Option Ptr := do
  let table := dynamicTable e img dynamic.pOffset.toNat
  let strtab ← entryOf table dtStrtab
  let symtab ← entryOf table dtSymtab
  let hash ← entryOf table dtHash
  ((symbols e img (load.place symtab) (nchain e img (load.place hash))).find?
    (·.Exports arch img (load.place strtab))).map fun sym =>
      base + load.pOffset - load.pVaddr + sym.stValue

def resolved (arch : Arch) (e : Endian) (base : Ptr) (img : List UInt8) : Option Ptr := do
  let load ← loadSegment e img
  let dynamic ← dynamicSegment e img
  exported arch e base img load dynamic

/-- `DT_NULL` ends the dynamic table inside the image, and no table is named
twice. -/
def DynamicTableOk (e : Endian) (img : List UInt8) (off : ℕ) : Prop :=
  (∃ entry ∈ dynamicEntries e img off, entry.tag = dtNull) ∧
    ∀ tag ∈ [dtStrtab, dtSymtab, dtHash], (dynamicTable e img off).countP (·.tag = tag) ≤ 1

/-- The hash table's count and that many symbols lie in the image, and a symbol
that has a name has one that a zero ends. -/
def SymbolTableOk (e : Endian) (img : List UInt8) (strtab symtab hash : ℕ) : Prop :=
  hash + 8 ≤ img.length ∧ ∀ i < nchain e img hash,
    symtab + (i + 1) * 24 ≤ img.length ∧
      ((symbolAt e img (symtab + i * 24)).stName ≠ 0 →
        0 ∈ img.drop (strtab + (symbolAt e img (symtab + i * 24)).stName))

structure HeaderOk (arch : Arch) (e : Endian) (img : List UInt8) : Prop where
  magic : word e img 0 4 = neVal e elfMagic
  elfClass : img.getD 4 0 = 2
  machine : word e img 18 2 = eMachine arch
  entsize : 56 ≤ phentsize e img

structure WellFormed (arch : Arch) (e : Endian) (img : List UInt8) : Prop where
  fits : img.length ≤ 2 ^ 64
  header : 64 ≤ img.length
  magic : img.take 4 = elfMagic
  elfClass : img[4]? = some 2
  machine : word e img 18 2 = eMachine arch
  entsize : 56 ≤ phentsize e img
  headers : ∀ i < phnum e img, phoff e img + i * phentsize e img + 56 ≤ img.length
  dynamic : loadSegment e img ≠ none → ∀ dynamic ∈ dynamicSegment e img,
    DynamicTableOk e img dynamic.pOffset.toNat
  symbols : ∀ load ∈ loadSegment e img, ∀ dynamic ∈ dynamicSegment e img,
    ∀ strtab ∈ entryOf (dynamicTable e img dynamic.pOffset.toNat) dtStrtab,
    ∀ symtab ∈ entryOf (dynamicTable e img dynamic.pOffset.toNat) dtSymtab,
    ∀ hash ∈ entryOf (dynamicTable e img dynamic.pOffset.toNat) dtHash,
      SymbolTableOk e img (load.place strtab) (load.place symtab) (load.place hash)

theorem WellFormed.headerOk {arch : Arch} {e : Endian} {img : List UInt8}
    (wf : WellFormed arch e img) : HeaderOk arch e img := by
  refine ⟨?_, ?_, wf.machine, wf.entsize⟩
  · rw [word, List.drop_zero, wf.magic]
  · rw [List.getD_eq_getElem?_getD, wf.elfClass]
    rfl

theorem wellFormed_of_tables {arch : Arch} {e : Endian} {img : List UInt8}
    {load dynamic : ProgramHeader} {strtab symtab hash : BitVec 64} (hfits : img.length ≤ 2 ^ 64)
    (hheader : 64 ≤ img.length) (hmagic : img.take 4 = elfMagic) (hclass : img[4]? = some 2)
    (hmachine : word e img 18 2 = eMachine arch) (hentsize : 56 ≤ phentsize e img)
    (hheaders : ∀ i < phnum e img, phoff e img + i * phentsize e img + 56 ≤ img.length)
    (hload : loadSegment e img = some load) (hdyn : dynamicSegment e img = some dynamic)
    (hok : DynamicTableOk e img dynamic.pOffset.toNat)
    (hstr : entryOf (dynamicTable e img dynamic.pOffset.toNat) dtStrtab = some strtab)
    (hsym : entryOf (dynamicTable e img dynamic.pOffset.toNat) dtSymtab = some symtab)
    (hhash : entryOf (dynamicTable e img dynamic.pOffset.toNat) dtHash = some hash)
    (hsyms : SymbolTableOk e img (load.place strtab) (load.place symtab) (load.place hash)) :
    WellFormed arch e img := by
  refine ⟨hfits, hheader, hmagic, hclass, hmachine, hentsize, hheaders, ?_, ?_⟩
  · intro _ dynamic' hmem
    obtain rfl := Option.some.inj (hdyn.symm.trans hmem)
    exact hok
  · intro load' hmem dynamic' hmem' strtab' hstr' symtab' hsym' hash' hhash'
    obtain rfl := Option.some.inj (hload.symm.trans hmem)
    obtain rfl := Option.some.inj (hdyn.symm.trans hmem')
    obtain rfl := Option.some.inj (hstr.symm.trans hstr')
    obtain rfl := Option.some.inj (hsym.symm.trans hsym')
    obtain rfl := Option.some.inj (hhash.symm.trans hhash')
    exact hsyms

end RustyLibc.Vdso
