import RustyLibc.VdsoImage

/-!
# `lookup` finds what the image exports

A well-formed image may lie anywhere in memory. Every read of the walk is matched
with the field of the image that it hits; from the fields follow the steps, from
the steps the loops, and from these that `lookup` ends in the entry point the
image exports, without a read outside the image. A name is compared no further
than the zero that ends it.
-/

namespace RustyLibc.Vdso
open ByteOrder HostCalls MemoryReads

section Walk

variable {e : Endian} {m : Memory 64 UInt8} {base : Ptr} {img : List UInt8}

theorem rd_yields (held : Holds m base img) {p : Ptr} {o : ℕ}
    (hp : p = base + BitVec.ofNat 64 o) (off width : ℕ) (hle : o + off + width ≤ img.length) :
    Yields m (span base img.length) (rd e p off width) (word e img (o + off) width) := by
  have hrun : Yields m _ (peekRun _ _ : Walk (List UInt8)) _ := Yields.run held hle
  rw [← offset_offset, ← hp] at hrun
  exact hrun.bind (Yields.pure _)

theorem rdU64_yields (held : Holds m base img) {p : Ptr} {o : ℕ}
    (hp : p = base + BitVec.ofNat 64 o) (off : ℕ) (hle : o + off + 8 ≤ img.length) :
    Yields m (span base img.length) (rdU64 e p off) (word64 e img (o + off)) :=
  (rd_yields held hp off 8 hle).bind (Yields.pure _)

theorem rdI64_yields (held : Holds m base img) {p : Ptr} {o : ℕ}
    (hp : p = base + BitVec.ofNat 64 o) (off : ℕ) (hle : o + off + 8 ≤ img.length) :
    Yields m (span base img.length) (rdI64 e p off) (word64 e img (o + off)).toInt :=
  (rd_yields held hp off 8 hle).bind (Yields.pure _)

theorem cstrEq_yields {p : Ptr} {bytes target : List UInt8} (held : Holds m p bytes)
    (hend : 0 ∈ bytes) (htarget : 0 ∉ target) :
    Yields m (span p ((bytes.takeWhile (· ≠ 0)).length + 1)) (cstrEq p target)
      (decide (bytes.takeWhile (· ≠ 0) = target)) := by
  induction target generalizing p bytes with
  | nil =>
    obtain _ | ⟨b, bytes⟩ := bytes
    · exact absurd hend List.not_mem_nil
    have hval : decide ((b :: bytes).takeWhile (· ≠ 0) = []) = (b == 0) := by
      by_cases hb : b = 0 <;> simp [hb]
    rw [hval]
    exact (Yields.peek_head held (mem_span_self p (Nat.succ_pos _))).bind (Yields.pure _)
  | cons t target ih =>
    obtain _ | ⟨b, bytes⟩ := bytes
    · exact absurd hend List.not_mem_nil
    have ht : t ≠ 0 := fun h => htarget (h ▸ List.mem_cons_self)
    apply (Yields.peek_head held (mem_span_self p (Nat.succ_pos _))).bind
    by_cases hbt : b = t
    · subst hbt
      have hname : (b :: bytes).takeWhile (· ≠ 0) = b :: bytes.takeWhile (· ≠ 0) := by simp [ht]
      have hrest := ih (held.shift 1) ((List.mem_cons.mp hend).resolve_left (Ne.symm ht))
        (fun h => htarget (List.mem_cons_of_mem b h))
      have hval : decide (bytes.takeWhile (· ≠ 0) = target) =
          decide (b :: bytes.takeWhile (· ≠ 0) = b :: target) := by simp
      rw [if_neg (not_not.mpr rfl), hname, ← hval]
      exact hrest.mono (span_shift (Nat.add_comm 1 _).le)
    · -- a zero ends the name before the target, and any other byte tells them apart
      have hval : decide ((b :: bytes).takeWhile (· ≠ 0) = t :: target) = false := by
        by_cases hb : b = 0 <;> simp [hb, hbt]
      rw [if_pos hbt, hval]
      exact Yields.pure false

def Segments.see (base : Ptr) (found : Segments) (h : ProgramHeader) : Segments :=
  found.record base h.pType h.pOffset h.pVaddr

theorem headerStep_yields (held : Holds m base img) (hfits : img.length ≤ 2 ^ 64) {i : ℕ}
    (hin : phoff e img + i * phentsize e img + 56 ≤ img.length) (found : Segments) :
    Yields m (span base img.length) (headerStep e base (phoff e img) (phentsize e img) found i)
      (found.see base (programHeader e img (phoff e img + i * phentsize e img))) := by
  have hstart : (Outcome.uadd (phoff e img) (i * phentsize e img) : Outcome Empty ℕ) =
      .ok (phoff e img + i * phentsize e img) := Outcome.uadd_eq_ok (by omega)
  unfold headerStep
  rw [hstart]
  apply (Yields.lift_ok _).bind
  apply (rd_yields held rfl 0 4 (by omega)).bind
  apply (rdU64_yields held rfl 8 (by omega)).bind
  exact (rdU64_yields held rfl 16 (by omega)).bind (Yields.pure _)

theorem loadOff_headers (base : Ptr) (hs : List ProgramHeader) :
    (hs.foldl (Segments.see base) ⟨none, none⟩).loadOff =
      (hs.find? (·.pType = ptLoad)).map fun h => h.pOffset - h.pVaddr := by
  refine foldl_first Segments.loadOff _ _ (fun found h => ?_) hs ⟨none, none⟩
  simp only [decide_eq_true_eq, Segments.see, Segments.record]
  split_ifs <;> rfl

theorem dynamic_headers (base : Ptr) (hs : List ProgramHeader) :
    (hs.foldl (Segments.see base) ⟨none, none⟩).dynamic =
      (hs.reverse.find? (·.pType = ptDynamic)).map fun h => base + h.pOffset := by
  have hlast := foldl_last Segments.dynamic (g := Segments.see base)
    (fun h => decide (h.pType = ptDynamic)) (fun h => base + h.pOffset) (fun found h => ?_) hs
    ⟨none, none⟩
  · rw [hlast, Option.or_none]
  · simp only [decide_eq_true_eq, Segments.see, Segments.record]
    split_ifs with hload hdyn
    · exact absurd (hload.1.symm.trans hdyn) (by decide)
    · rfl
    · rfl
    · rfl

theorem headers_yield (held : Holds m base img) (hfits : img.length ≤ 2 ^ 64)
    (hin : ∀ i < phnum e img, phoff e img + i * phentsize e img + 56 ≤ img.length) :
    Yields m (span base img.length)
      ((List.range (phnum e img)).foldlM (headerStep e base (phoff e img) (phentsize e img))
        ⟨none, none⟩)
      ⟨(loadSegment e img).map fun h => h.pOffset - h.pVaddr,
        (dynamicSegment e img).map fun h => base + h.pOffset⟩ := by
  have hfold := Yields.foldlM (fun found i hi =>
    headerStep_yields held hfits (hin i (List.mem_range.mp hi)) found) ⟨none, none⟩
  have hmap : (List.range (phnum e img)).foldl (fun found i =>
      found.see base (programHeader e img (phoff e img + i * phentsize e img))) ⟨none, none⟩ =
      (programHeaders e img).foldl (Segments.see base) ⟨none, none⟩ := by
    rw [programHeaders, List.foldl_map]
  rw [hmap] at hfold
  have hfound : (programHeaders e img).foldl (Segments.see base) ⟨none, none⟩ =
      ⟨(loadSegment e img).map fun h => h.pOffset - h.pVaddr,
        (dynamicSegment e img).map fun h => base + h.pOffset⟩ := by
    rw [loadSegment, dynamicSegment, ← loadOff_headers base, ← dynamic_headers base]
  exact hfound ▸ hfold

def Tables.see (base : Ptr) (load : ProgramHeader) (found : Tables) (entry : DynamicEntry) : Tables :=
  found.record base (load.pOffset - load.pVaddr) entry.tag entry.val

theorem reloc_eq_place (base : Ptr) (load : ProgramHeader) (vaddr : BitVec 64) :
    reloc base (load.pOffset - load.pVaddr) vaddr = base + BitVec.ofNat 64 (load.place vaddr) := by
  rw [reloc, ProgramHeader.place, BitVec.ofNat_toNat, BitVec.setWidth_eq]

theorem dynamicStep_yields (held : Holds m base img) {d : Ptr} {o : ℕ} (load : ProgramHeader)
    (hd : d = base + BitVec.ofNat 64 o) (hin : o + 16 ≤ img.length) (found : Tables) :
    Yields m (span base img.length) (dynamicStep e base (load.pOffset - load.pVaddr) (d, found))
      (if (dynamicEntry e img o).tag ≠ dtNull then
        .next (d + 16, found.see base load (dynamicEntry e img o)) else .done found) := by
  apply (rdI64_yields held hd 0 (by omega)).bind
  change Yields _ _ (if (dynamicEntry e img o).tag = dtNull then _ else _) _
  by_cases hnull : (dynamicEntry e img o).tag = dtNull
  · rw [if_pos hnull, if_neg (not_not.mpr hnull)]
    exact Yields.pure _
  · rw [if_neg hnull, if_pos hnull]
    exact (rdU64_yields held hd 8 (by omega)).bind (Yields.pure _)

theorem length_dynamicEntries (e : Endian) (img : List UInt8) (off : ℕ) :
    (dynamicEntries e img off).length = (img.length - off) / 16 := by
  rw [dynamicEntries, List.length_map, List.length_range]

theorem getElem?_dynamicEntries {off i : ℕ} {entry : DynamicEntry}
    (h : (dynamicEntries e img off)[i]? = some entry) :
    off + i * 16 + 16 ≤ img.length ∧ entry = dynamicEntry e img (off + i * 16) := by
  have hi : i < (img.length - off) / 16 :=
    (List.getElem?_eq_some_iff.mp h).1.trans_eq (length_dynamicEntries e img off)
  rw [dynamicEntries, List.getElem?_map, List.getElem?_range hi] at h
  exact ⟨by omega, (Option.some.inj h).symm⟩

theorem dynamicLoop_yields (held : Holds m base img) (load : ProgramHeader) {off passes : ℕ}
    (hend : ∃ entry ∈ dynamicEntries e img off, entry.tag = dtNull) (hpasses : img.length ≤ passes) :
    Yields m (span base img.length)
      (Sys.loop (dynamicStep e base (load.pOffset - load.pVaddr)) passes
        (base + BitVec.ofNat 64 off, ⟨none, none, none⟩))
      ((dynamicTable e img off).foldl (Tables.see base load) ⟨none, none, none⟩) := by
  have hnext : ∀ i, base + BitVec.ofNat 64 (off + i * 16) + 16 =
      base + BitVec.ofNat 64 (off + (i + 1) * 16) := by
    intro i
    rw [Nat.add_mul, Nat.one_mul, ← Nat.add_assoc]
    exact offset_offset base (off + i * 16) 16
  refine Yields.loop_table (fun i (found : Tables) => (base + BitVec.ofNat 64 (off + i * 16), found))
    (fun i entry found hentry => ?_) ?_ ?_ ⟨none, none, none⟩
  · obtain ⟨hin, rfl⟩ := getElem?_dynamicEntries hentry
    have hstep := dynamicStep_yields (e := e) held load rfl hin found
    rw [hnext] at hstep
    simpa using hstep
  · obtain ⟨entry, hmem, hnull⟩ := hend
    exact ⟨entry, hmem, by simp [hnull]⟩
  · rw [length_dynamicEntries]
    omega

theorem strtab_see (base : Ptr) (load : ProgramHeader) (found : Tables) (entry : DynamicEntry) :
    (found.see base load entry).strtab = if entry.tag = dtStrtab then
      some (reloc base (load.pOffset - load.pVaddr) entry.val) else found.strtab := by
  unfold Tables.see Tables.record
  split_ifs <;> rfl

theorem symtab_see (base : Ptr) (load : ProgramHeader) (found : Tables) (entry : DynamicEntry) :
    (found.see base load entry).symtab = if entry.tag = dtSymtab then
      some (reloc base (load.pOffset - load.pVaddr) entry.val) else found.symtab := by
  have hne : dtStrtab ≠ dtSymtab := by decide
  unfold Tables.see Tables.record
  split_ifs with hstr hsym
  · exact absurd (hstr.symm.trans hsym) hne
  all_goals rfl

theorem hash_see (base : Ptr) (load : ProgramHeader) (found : Tables) (entry : DynamicEntry) :
    (found.see base load entry).hash = if entry.tag = dtHash then
      some (reloc base (load.pOffset - load.pVaddr) entry.val) else found.hash := by
  have hstr : dtHash ≠ dtStrtab := by decide
  have hsym : dtHash ≠ dtSymtab := by decide
  unfold Tables.see Tables.record
  by_cases hhash : entry.tag = dtHash
  · rw [hhash, if_neg hstr, if_neg hsym, if_pos rfl]
    rfl
  · split_ifs <;> rfl

/-- A table that is named at most once is found, whatever the order of the
entries. -/
theorem part_tables (part : Tables → Option Ptr) {tag : ℤ} {load : ProgramHeader}
    {table : List DynamicEntry}
    (hstep : ∀ found entry, part (Tables.see base load found entry) =
      if entry.tag = tag then some (reloc base (load.pOffset - load.pVaddr) entry.val)
      else part found)
    (hnone : part ⟨none, none, none⟩ = none) (honce : table.countP (·.tag = tag) ≤ 1) :
    part (table.foldl (Tables.see base load) ⟨none, none, none⟩) =
      (entryOf table tag).map fun v => base + BitVec.ofNat 64 (load.place v) := by
  rw [foldl_last part (fun entry => decide (entry.tag = tag))
    (fun entry => reloc base (load.pOffset - load.pVaddr) entry.val)
    (fun found entry => by rw [hstep]; simp only [decide_eq_true_eq]),
    find?_reverse_of_countP_le_one honce, hnone, Option.or_none, entryOf, Option.map_map]
  simp only [reloc_eq_place, Function.comp_def]

theorem tables_found {load : ProgramHeader} {table : List DynamicEntry}
    (honce : ∀ tag ∈ [dtStrtab, dtSymtab, dtHash], table.countP (·.tag = tag) ≤ 1) :
    table.foldl (Tables.see base load) ⟨none, none, none⟩ =
      ⟨(entryOf table dtStrtab).map fun v => base + BitVec.ofNat 64 (load.place v),
        (entryOf table dtSymtab).map fun v => base + BitVec.ofNat 64 (load.place v),
        (entryOf table dtHash).map fun v => base + BitVec.ofNat 64 (load.place v)⟩ := by
  rw [← part_tables Tables.strtab (strtab_see base load) rfl (honce dtStrtab (by simp)),
    ← part_tables Tables.symtab (symtab_see base load) rfl (honce dtSymtab (by simp)),
    ← part_tables Tables.hash (hash_see base load) rfl (honce dtHash (by simp))]

theorem length_name_lt {bytes : List UInt8} (h : 0 ∈ bytes) :
    (bytes.takeWhile (· ≠ 0)).length + 1 ≤ bytes.length := by
  induction bytes with
  | nil => exact absurd h List.not_mem_nil
  | cons b bytes ih =>
    by_cases hb : b = 0
    · simp [hb]
    · have hrest := ih ((List.mem_cons.mp h).resolve_left (Ne.symm hb))
      rw [List.takeWhile_cons_of_pos (by simpa using hb)]
      exact Nat.succ_le_succ hrest

theorem name_yields (held : Holds m base img) {o : ℕ} (hend : 0 ∈ img.drop o) (arch : Arch) :
    Yields m (span (base + BitVec.ofNat 64 o) ((nameAt img o).length + 1))
      (cstrEq (base + BitVec.ofNat 64 o) (symbol arch)) (decide (nameAt img o = symbol arch)) :=
  cstrEq_yields (held.shift o) hend (by cases arch <;> decide +kernel)

theorem symbolStep_yields (arch : Arch) (held : Holds m base img) (load : ProgramHeader)
    {strtab symtab i : ℕ} (hin : symtab + (i + 1) * 24 ≤ img.length)
    (hname : (symbolAt e img (symtab + i * 24)).stName ≠ 0 →
      0 ∈ img.drop (strtab + (symbolAt e img (symtab + i * 24)).stName)) :
    Yields m (span base img.length)
      (symbolStep arch e base (load.pOffset - load.pVaddr) (base + BitVec.ofNat 64 strtab)
        (base + BitVec.ofNat 64 symtab) i)
      (if (symbolAt e img (symtab + i * 24)).Exports arch img strtab then
        some (base + load.pOffset - load.pVaddr + (symbolAt e img (symtab + i * 24)).stValue)
        else none) := by
  have hsym := offset_offset base symtab (i * 24)
  have hname4 := rd_yields (e := e) held hsym 0 4 (by omega)
  have hvalue8 := rdU64_yields (e := e) held hsym 8 (by omega)
  generalize hs : symbolAt e img (symtab + i * 24) = s at hname ⊢
  rw [show word e img (symtab + i * 24 + 0) 4 = s.stName from congrArg Symbol.stName hs] at hname4
  rw [show word64 e img (symtab + i * 24 + 8) = s.stValue from congrArg Symbol.stValue hs] at hvalue8
  refine hname4.bind (hvalue8.bind ?_)
  by_cases hskip : s.stName = 0 ∨ s.stValue = 0
  · have hno : ¬ s.Exports arch img strtab := fun h => hskip.elim h.1 h.2.1
    rw [if_pos hskip, if_neg hno]
    exact Yields.pure none
  · obtain ⟨hn, hv⟩ := not_or.mp hskip
    have hend := hname hn
    have hlen := length_name_lt hend
    rw [List.length_drop] at hlen
    have hcmp := (name_yields held hend arch).mono (span_shift (n := img.length) (by
      unfold nameAt
      omega))
    have hval : reloc base (load.pOffset - load.pVaddr) s.stValue =
        base + load.pOffset - load.pVaddr + s.stValue := by
      simp only [reloc, BitVec.sub_eq_add_neg, BitVec.add_assoc]
    have hexp : s.Exports arch img strtab ↔ nameAt img (strtab + s.stName) = symbol arch :=
      ⟨fun h => h.2.2, fun h => ⟨hn, hv, h⟩⟩
    rw [if_neg hskip]
    rw [← offset_offset] at hcmp
    apply hcmp.bind
    rw [hval]
    simp only [decide_eq_true_eq, hexp]
    exact Yields.pure _

theorem searchTables_yields (arch : Arch) (held : Holds m base img) {load dynamic : ProgramHeader}
    {passes : ℕ} (hdyn : DynamicTableOk e img dynamic.pOffset.toNat) (hpasses : img.length ≤ passes)
    (hsyms : ∀ strtab ∈ entryOf (dynamicTable e img dynamic.pOffset.toNat) dtStrtab,
      ∀ symtab ∈ entryOf (dynamicTable e img dynamic.pOffset.toNat) dtSymtab,
      ∀ hash ∈ entryOf (dynamicTable e img dynamic.pOffset.toNat) dtHash,
        SymbolTableOk e img (load.place strtab) (load.place symtab) (load.place hash)) :
    Yields m (span base img.length)
      (searchTables arch e passes base (load.pOffset - load.pVaddr) (base + dynamic.pOffset))
      (exported arch e base img load dynamic) := by
  have hstart : base + dynamic.pOffset = base + BitVec.ofNat 64 dynamic.pOffset.toNat := by
    rw [BitVec.ofNat_toNat, BitVec.setWidth_eq]
  have hloop := dynamicLoop_yields held load hdyn.1 hpasses
  rw [tables_found hdyn.2, ← hstart] at hloop
  apply hloop.bind
  unfold exported
  generalize dynamicTable e img dynamic.pOffset.toNat = table at hsyms ⊢
  simp only [orReturn_map]
  apply Yields.orReturn
  intro strtab hstr
  apply Yields.orReturn
  intro symtab hsym
  apply Yields.orReturn
  intro hash hhash
  obtain ⟨hcount, hrows⟩ := hsyms strtab hstr symtab hsym hash hhash
  apply (rd_yields held rfl 4 4 (by omega)).bind
  have hscan := Yields.firstSome fun i hi =>
    symbolStep_yields arch held load (hrows i (List.mem_range.mp hi)).1
      (hrows i (List.mem_range.mp hi)).2
  have hfind : (List.range (nchain e img (load.place hash))).findSome? (fun i =>
      if (symbolAt e img (load.place symtab + i * 24)).Exports arch img (load.place strtab) then
        some (base + load.pOffset - load.pVaddr +
          (symbolAt e img (load.place symtab + i * 24)).stValue)
      else none) =
      ((symbols e img (load.place symtab) (nchain e img (load.place hash))).find?
        (·.Exports arch img (load.place strtab))).map fun sym =>
          base + load.pOffset - load.pVaddr + sym.stValue := by
    rw [← findSome?_ite, symbols, List.findSome?_map]
    rfl
  rw [hfind] at hscan
  exact hscan

theorem searchHeaders_yields (held : Holds m base img) {arch : Arch} (wf : WellFormed arch e img)
    {passes : ℕ} (hpasses : img.length ≤ passes) :
    Yields m (span base img.length)
      (searchHeaders arch e passes base (phoff e img) (phentsize e img) (phnum e img))
      (resolved arch e base img) := by
  apply (headers_yield held wf.fits wf.headers).bind
  simp only [orReturn_map]
  apply Yields.orReturn
  intro load hload
  apply Yields.orReturn
  intro dynamic hdyn
  have hsome : loadSegment e img ≠ none := by
    rw [Option.mem_def.mp hload]
    exact Option.some_ne_none load
  exact searchTables_yields arch held (wf.dynamic hsome dynamic hdyn) hpasses
    (wf.symbols load hload dynamic hdyn)

/-- The ELF header is checked first; where a check fails, `lookup` gives up. -/
theorem lookup_checked (held : Holds m base img) (hlen : 64 ≤ img.length) {arch : Arch} {passes : ℕ}
    {v : Option Ptr} (hbad : ¬ HeaderOk arch e img → v = none)
    (hgood : HeaderOk arch e img → Yields m (span base img.length)
      (searchHeaders arch e passes base (phoff e img) (phentsize e img) (phnum e img)) v) :
    Yields m (span base img.length) (lookup arch e passes base) v := by
  have hbase : base = base + BitVec.ofNat 64 0 := (BitVec.add_zero base).symm
  have hclass : Yields m (span base img.length) (peek (base + 4) : Walk UInt8) (img.getD 4 0) := by
    have hin : 4 < img.length := by omega
    have hbyte : m (base + 4) = img.getD 4 0 := held 4 _ (by simp [hin])
    rw [← hbyte]
    exact Yields.peek ⟨4, by omega, rfl⟩
  apply (rd_yields held hbase 0 4 (by omega)).bind
  -- a check that fails ends the walk, so the cases are taken in the order of the source
  by_cases hmagic : word e img 0 4 = neVal e elfMagic
  swap
  · rw [if_pos hmagic, hbad fun h => hmagic h.magic]
    exact Yields.pure none
  rw [if_neg (not_not.mpr hmagic)]
  apply hclass.bind
  by_cases hcls : img.getD 4 0 = 2
  swap
  · rw [if_pos hcls, hbad fun h => hcls h.elfClass]
    exact Yields.pure none
  rw [if_neg (not_not.mpr hcls)]
  apply (rd_yields held hbase 18 2 (by omega)).bind
  rw [Nat.zero_add]
  by_cases hmach : word e img 18 2 = eMachine arch
  swap
  · rw [if_pos hmach, hbad fun h => hmach h.machine]
    exact Yields.pure none
  rw [if_neg (not_not.mpr hmach)]
  apply (rdU64_yields held hbase 32 (by omega)).bind
  apply (rd_yields held hbase 54 2 (by omega)).bind
  apply (rd_yields held hbase 56 2 (by omega)).bind
  simp only [Nat.zero_add]
  change Yields m _ (if phentsize e img < 56 then _ else _) _
  by_cases hsize : phentsize e img < 56
  · rw [if_pos hsize, hbad fun h => Nat.not_lt.mpr h.entsize hsize]
    exact Yields.pure none
  · rw [if_neg hsize]
    exact hgood ⟨hmagic, hcls, hmach, Nat.not_lt.mp hsize⟩

theorem lookup_refuses (held : Holds m base img) (hlen : 64 ≤ img.length) {arch : Arch}
    (h : ¬ HeaderOk arch e img) (passes : ℕ) :
    Yields m (span base img.length) (lookup arch e passes base) none :=
  lookup_checked held hlen (fun _ => rfl) fun hok => absurd hok h

end Walk

/-- On a well-formed image at any base `lookup` ends in the entry point that the
image exports, or in `none` if there is none, and reads inside the image only; a
name is read no further than its zero. -/
theorem lookup_resolves (arch : Arch) (e : Endian) (m : Memory 64 UInt8) (base : Ptr)
    (img : List UInt8) (passes : ℕ) (held : Holds m base img) (wf : WellFormed arch e img)
    (hpasses : img.length ≤ passes) :
    Yields m (span base img.length) (lookup arch e passes base) (resolved arch e base img) ∧
    ∀ o, 0 ∈ img.drop o →
      Yields m (span (base + BitVec.ofNat 64 o) ((nameAt img o).length + 1))
        (cstrEq (base + BitVec.ofNat 64 o) (symbol arch)) (decide (nameAt img o = symbol arch)) :=
  ⟨lookup_checked held wf.header (fun h => absurd wf.headerOk h)
      fun _ => searchHeaders_yields held wf hpasses,
    fun _ hend => name_yields held hend arch⟩

/-- A dynamic segment before the load segment, which is linked at `0x1000`, a
symbol whose name is only the beginning of the one looked for, and that one. -/
def smallImage : List UInt8 :=
  elfMagic ++ [2, 1, 1] ++ leBytes 9 0 ++
    leBytes 2 3 ++ leBytes 2 62 ++ leBytes 4 1 ++ leBytes 8 0 ++ leBytes 8 64 ++ leBytes 8 0 ++
    leBytes 4 0 ++ leBytes 2 64 ++ leBytes 2 56 ++ leBytes 2 2 ++ leBytes 6 0 ++
    -- program headers
    leBytes 4 2 ++ leBytes 4 4 ++ leBytes 8 176 ++ leBytes 8 0x10b0 ++ leBytes 32 0 ++
    leBytes 4 1 ++ leBytes 4 5 ++ leBytes 8 0 ++ leBytes 8 0x1000 ++ leBytes 32 0 ++
    -- dynamic table
    leBytes 8 4 ++ leBytes 8 0x10f0 ++ leBytes 8 5 ++ leBytes 8 0x1140 ++
    leBytes 8 6 ++ leBytes 8 0x10f8 ++ leBytes 16 0 ++
    -- hash table and symbols
    leBytes 4 1 ++ leBytes 4 3 ++ leBytes 24 0 ++
    leBytes 4 1 ++ leBytes 4 0 ++ leBytes 8 0x1500 ++ leBytes 8 0 ++
    leBytes 4 8 ++ leBytes 4 0 ++ leBytes 8 0x1600 ++ leBytes 8 0 ++
    -- strings
    0 :: Text.utf8 "__vdso".toList ++ 0 :: symbol .x86_64 ++ [0]

def loaded (base : Ptr) (img : List UInt8) : Memory 64 UInt8 := fun a => img.getD (a - base).toNat 0

theorem holds_loaded (base : Ptr) {img : List UInt8} (h : img.length ≤ 2 ^ 64) :
    Holds (loaded base img) base img := by
  intro i b hb
  have hi : i < 2 ^ 64 := (List.getElem?_eq_some_iff.mp hb).1.trans_le h
  have hoff : (base + BitVec.ofNat 64 i - base).toNat = i := by
    rw [BitVec.add_comm, BitVec.add_sub_cancel, BitVec.toNat_ofNat, Nat.mod_eq_of_lt hi]
  rw [loaded, hoff, List.getD_eq_getElem?_getD, hb]
  rfl

theorem wellFormed_smallImage : WellFormed .x86_64 .little smallImage := by
  have hload : loadSegment .little smallImage = some ⟨1, 0, 0x1000⟩ := by decide +kernel
  have hdyn : dynamicSegment .little smallImage = some ⟨2, 176, 0x10b0⟩ := by decide +kernel
  have hok : DynamicTableOk .little smallImage 176 := by
    unfold DynamicTableOk
    decide +kernel
  have htable : dynamicTable .little smallImage 176 = [⟨4, 0x10f0⟩, ⟨5, 0x1140⟩, ⟨6, 0x10f8⟩] := by
    decide +kernel
  have hsyms : SymbolTableOk .little smallImage 0x140 0xf8 0xf0 := by
    unfold SymbolTableOk
    decide +kernel
  exact wellFormed_of_tables (by decide +kernel) (by decide +kernel) (by decide +kernel)
    (by decide +kernel) (by decide +kernel) (by decide +kernel) (by decide +kernel) hload hdyn hok
    (congrArg (entryOf · dtStrtab) htable) (congrArg (entryOf · dtSymtab) htable)
    (congrArg (entryOf · dtHash) htable) hsyms

theorem lookup_resolves_smallImage :
    Yields (loaded 0x7fff00001000 smallImage) (span 0x7fff00001000 349)
      (lookup .x86_64 .little 349 0x7fff00001000) (some 0x7fff00001600) := by
  have hlen : smallImage.length = 349 := by decide +kernel
  have hfound : resolved .x86_64 .little 0x7fff00001000 smallImage = some 0x7fff00001600 := by
    decide +kernel
  have hrun := (lookup_resolves .x86_64 .little (loaded 0x7fff00001000 smallImage) 0x7fff00001000
    smallImage 349 (holds_loaded _ wellFormed_smallImage.fits) wellFormed_smallImage hlen.le).1
  rw [hlen, hfound] at hrun
  exact hrun

end RustyLibc.Vdso
