import RustyLibc.VdsoBase
import RustyLibc.VdsoResolve

/-!
# From the auxiliary vector to the clock entry (`vdso.rs`)

`resolve` asks the kernel for the base of the vDSO and then walks the image that
lies there. The kernel promises one thing about the two: what the vector
publishes is where the image is mapped. Under that promise the entry that
`resolve` hands over is the one the image exports, and every way in which the
discovery can go wrong ends in `None`, behind which `clock_gettime` makes the
system call.
-/

namespace RustyLibc.Vdso
open ByteOrder HostCalls MemoryReads Outcome

variable {σ : Type}

/-- `resolve`, with the passes of `read_all` and of the loop over the dynamic
table that are watched. -/
def resolve (arch : Arch) (e : Endian) (kernel : Fd.Kernel σ) (m : Memory 64 UInt8)
    (passes walk : ℕ) : Fd.Call σ (Option Ptr) := do
  match ← vdsoBase e kernel passes with
  | none => pure none
  | some base => Sys.lift (ofNever (lookup arch e walk base ⟨m, []⟩).1)

/-- The image `img` lies wherever a vector of the bytes `auxv` says. -/
def Mapped (arch : Arch) (e : Endian) (m : Memory 64 UInt8) (img auxv : List UInt8) : Prop :=
  ∀ base, Published e auxv base → Holds m base img ∧ WellFormed arch e img

theorem ofNever_lookup {arch : Arch} {e : Endian} {m : Memory 64 UInt8} {base : Ptr}
    {img : List UInt8} {walk : ℕ} (held : Holds m base img) (wf : WellFormed arch e img)
    (hwalk : img.length ≤ walk) :
    (ofNever (lookup arch e walk base ⟨m, []⟩).1 : Outcome Errno (Option Ptr)) =
      .ok (resolved arch e base img) := by
  have hyields : Yields m (span base img.length) (lookup arch e walk base)
      (resolved arch e base img) :=
    lookup_checked held wf.header (fun h => absurd wf.headerOk h)
      fun _ => searchHeaders_yields held wf hwalk
  obtain ⟨reads, hrun, -⟩ := hyields []
  rw [hrun]
  rfl

theorem vdsoBase_found {e : Endian} {kernel : Fd.Kernel σ} {passes : ℕ} {s : σ}
    {r : Outcome Errno (Option Ptr)} {w : World Fd.Reply Errno σ}
    (hrun : vdsoBase e kernel passes ⟨s, []⟩ = (r, w)) (hret : r ≠ .diverge) :
    ∃ found, r = .ok found ∧ (ReadFailed w.trace → found = none) ∧
      (¬ ReadFailed w.trace → found = pick (entries e (Fd.consumed w.trace))) := by
  rcases vdsoBase_cases hrun with ⟨code, rfl, htrace⟩ |
    ⟨fd, t, hreads, -, ⟨reply, rfl, htrace, hclean, -⟩ |
      ⟨code, rfl, htrace, hne, step, hstep, hcode⟩ | ⟨rfl, -⟩⟩
  · refine ⟨none, rfl, fun _ => rfl, fun _ => ?_⟩
    rw [htrace]
    change none = pick (entries e [])
    rw [entries_nil]
    rfl
  · have hbytes : Fd.consumed w.trace = Fd.consumed t := by
      rw [htrace]
      change Fd.consumed (t ++ [⟨.close fd, reply⟩]) = _
      rw [Fd.consumed_append, Fd.consumed_singleton]
      exact List.append_nil _
    refine ⟨_, rfl, fun hfailed => ?_, fun _ => by rw [hbytes]⟩
    obtain ⟨step, hstep, hread, code, hcode, hne⟩ := hfailed
    rw [htrace] at hstep
    rcases List.mem_cons.mp hstep with rfl | hstep
    · exact hread.elim
    · rcases List.mem_append.mp hstep with hmem | hlast
      · exact absurd (hclean step hmem code hcode) hne
      · rw [List.mem_singleton.mp hlast] at hread
        exact hread.elim
  · refine ⟨none, rfl, fun _ => rfl, fun hno => absurd ?_ hno⟩
    rw [htrace]
    exact ⟨step, List.mem_cons_of_mem _ hstep, hreads step hstep, code, hcode, hne⟩
  · exact absurd rfl hret

/-- What `resolve` should find: the entry that the image exports, relocated to
the base that the vector publishes. -/
def Entry (arch : Arch) (e : Endian) (img auxv : List UInt8) (f : Ptr) : Prop :=
  ∃ base, Published e auxv base ∧ resolved arch e base img = some f

/-- A finished `resolve` has not panicked, and its result is the entry of the
image that the vector points to unless a read failed, in which case it is
`None`. -/
theorem resolve_entry (arch : Arch) (e : Endian) (kernel : Fd.Kernel σ) (m : Memory 64 UInt8)
    (img : List UInt8) (passes walk : ℕ) (s : σ) (r : Outcome Errno (Option Ptr))
    (w : World Fd.Reply Errno σ) (hrun : resolve arch e kernel m passes walk ⟨s, []⟩ = (r, w))
    (hret : r ≠ .diverge) (hwalk : img.length ≤ walk)
    (hmapped : Mapped arch e m img (Fd.consumed w.trace)) :
    ∃ found, r = .ok found ∧ (ReadFailed w.trace → found = none) ∧
      (¬ ReadFailed w.trace → ∀ f, found = some f ↔ Entry arch e img (Fd.consumed w.trace) f) := by
  rcases hbase : vdsoBase e kernel passes ⟨s, []⟩ with ⟨r', v⟩
  have hret' : r' ≠ .diverge := by
    rintro rfl
    change Sys.bind _ _ _ = _ at hrun
    rw [Sys.bind, hbase] at hrun
    exact hret (Prod.mk.inj hrun).1.symm
  obtain ⟨found, rfl, hfailed, hpick⟩ := vdsoBase_found hbase hret'
  rw [resolve, Sys.bind_of_ok hbase] at hrun
  cases found with
  | none =>
    obtain ⟨rfl, rfl⟩ := Prod.mk.inj hrun
    refine ⟨none, rfl, fun _ => rfl, fun hclean f => ?_⟩
    constructor
    · intro h
      cases h
    · rintro ⟨base, hpublished, -⟩
      rw [← pick_entries_iff, ← hpick hclean] at hpublished
      cases hpublished
  | some base =>
    obtain ⟨rfl, rfl⟩ := Prod.mk.inj hrun
    have hclean : ¬ ReadFailed v.trace := fun h => by cases hfailed h
    have hpublished : Published e (Fd.consumed v.trace) base :=
      pick_entries_iff.mp (hpick hclean).symm
    obtain ⟨held, wf⟩ := hmapped base hpublished
    refine ⟨_, ofNever_lookup held wf hwalk, fun h => absurd h hclean, fun _ f => ?_⟩
    constructor
    · exact fun h => ⟨base, hpublished, h⟩
    · rintro ⟨base', hpublished', hentry⟩
      rw [← pick_entries_iff, ← hpick hclean] at hpublished'
      obtain rfl := Option.some.inj hpublished'
      exact hentry

structure Placed (arch : Arch) (e : Endian) (img auxv : List UInt8) : Prop where
  room : ∀ base, Published e auxv base → base.toNat + img.length ≤ 2 ^ 64
  inside : ∀ base f, Published e auxv base → resolved arch e base img = some f →
    ∃ o, 64 ≤ o ∧ o < img.length ∧ f = base + BitVec.ofNat 64 o

theorem Entry.sixtyFour_le {arch : Arch} {e : Endian} {img auxv : List UInt8} {f : Ptr}
    (h : Entry arch e img auxv f) (hplaced : Placed arch e img auxv) : 64 ≤ f.toNat := by
  obtain ⟨base, hpublished, hentry⟩ := h
  obtain ⟨o, hlow, hin, rfl⟩ := hplaced.inside base f hpublished hentry
  have hroom := hplaced.room base hpublished
  rw [BitVec.toNat_add, BitVec.toNat_ofNat]
  omega

theorem vdsoBase_calls (e : Endian) (kernel : Fd.Kernel σ) (passes : ℕ) (s : σ) :
    let w := (vdsoBase e kernel passes ⟨s, []⟩).2
    w.trace.length ≤ Fd.interruptions w.trace + 4099 := by
  intro w
  have hbehind (x : Fd.Step) {t tail : List Fd.Step} (ht : t.length ≤ Fd.interruptions t + 4097)
      (htail : tail.length ≤ 1) :
      (x :: (t ++ tail)).length ≤ Fd.interruptions (x :: (t ++ tail)) + 4099 := by
    have hmore : Fd.interruptions (t ++ tail) ≤ Fd.interruptions (x :: (t ++ tail)) :=
      List.Sublist.countP_le (List.sublist_cons_self x (t ++ tail))
    rw [Fd.interruptions_append] at hmore
    rw [List.length_cons, List.length_append]
    omega
  rcases vdsoBase_cases (Prod.eta (vdsoBase e kernel passes ⟨s, []⟩)).symm with ⟨code, -, htrace⟩ |
    ⟨fd, t, -, hcalls, ⟨reply, -, htrace, -⟩ | ⟨code, -, htrace, -⟩ | ⟨-, htrace, -⟩⟩
  · rw [htrace, List.length_singleton]
    omega
  · rw [htrace]
    exact hbehind _ hcalls le_rfl
  · rw [htrace, ← List.append_nil t]
    exact hbehind _ hcalls (Nat.zero_le 1)
  · rw [htrace, ← List.append_nil t]
    exact hbehind _ hcalls (Nat.zero_le 1)

theorem vdsoBase_diverges {e : Endian} {kernel : Fd.Kernel σ} {passes : ℕ} {s : σ}
    {w : World Fd.Reply Errno σ} (hrun : vdsoBase e kernel passes ⟨s, []⟩ = (.diverge, w)) :
    w.trace.length = passes + 1 := by
  rcases vdsoBase_cases hrun with ⟨code, hr, -⟩ |
    ⟨fd, t, -, -, ⟨reply, hr, -⟩ | ⟨code, hr, -⟩ | ⟨-, htrace, hlen⟩⟩
  · cases hr
  · cases hr
  · cases hr
  · rw [htrace, List.length_cons, hlen]

/-- Behind `vdso_base` the kernel is asked for nothing. -/
theorem resolve_world (arch : Arch) (e : Endian) (kernel : Fd.Kernel σ) (m : Memory 64 UInt8)
    (passes walk : ℕ) (s : σ) :
    (resolve arch e kernel m passes walk ⟨s, []⟩).2 = (vdsoBase e kernel passes ⟨s, []⟩).2 := by
  rcases hbase : vdsoBase e kernel passes ⟨s, []⟩ with ⟨r, v⟩
  change (Sys.bind _ _ _).2 = v
  rw [Sys.bind, hbase]
  cases r with
  | ok found => cases found <;> rfl
  | err code => rfl
  | panic => rfl
  | diverge => rfl

theorem resolve_calls (arch : Arch) (e : Endian) (kernel : Fd.Kernel σ) (m : Memory 64 UInt8)
    (passes walk : ℕ) (s : σ) :
    let w := (resolve arch e kernel m passes walk ⟨s, []⟩).2
    w.trace.length ≤ Fd.interruptions w.trace + 4099 := by
  rw [resolve_world]
  exact vdsoBase_calls e kernel passes s

/-- Only interruptions can keep `resolve` from returning. -/
theorem resolve_returns (arch : Arch) (e : Endian) (kernel : Fd.Kernel σ) (m : Memory 64 UInt8)
    {img : List UInt8} {passes walk : ℕ} {s : σ} {r : Outcome Errno (Option Ptr)}
    {w : World Fd.Reply Errno σ} (hrun : resolve arch e kernel m passes walk ⟨s, []⟩ = (r, w))
    (hwalk : img.length ≤ walk) (hmapped : Mapped arch e m img (Fd.consumed w.trace))
    (hpasses : Fd.interruptions w.trace + 4099 ≤ passes) : ∃ found, r = .ok found := by
  have hworld := resolve_world arch e kernel m passes walk s
  have hcalls := vdsoBase_calls e kernel passes s
  rcases hbase : vdsoBase e kernel passes ⟨s, []⟩ with ⟨r', v⟩
  rw [hrun, hbase] at hworld
  obtain rfl : w = v := hworld
  rw [hbase] at hcalls
  have hret' : r' ≠ .diverge := by
    rintro rfl
    have hlen := vdsoBase_diverges hbase
    dsimp only at hcalls
    omega
  obtain ⟨found, rfl, hfailed, hpick⟩ := vdsoBase_found hbase hret'
  rw [resolve, Sys.bind_of_ok hbase] at hrun
  cases found with
  | none => exact ⟨none, (Prod.mk.inj hrun).1.symm⟩
  | some base =>
    obtain ⟨rfl, -⟩ := Prod.mk.inj hrun
    have hclean : ¬ ReadFailed w.trace := fun h => by cases hfailed h
    obtain ⟨held, wf⟩ := hmapped base (pick_entries_iff.mp (hpick hclean).symm)
    exact ⟨_, ofNever_lookup held wf hwalk⟩

/-- What `resolve` may return where the kernel keeps its promise, and answers as it
likes otherwise. -/
def Resolves (arch : Arch) (e : Endian) (m : Memory 64 UInt8) (img : List UInt8)
    (found : Option Ptr) : Prop :=
  ∃ (σ : Type) (kernel : Fd.Kernel σ) (passes walk : ℕ) (s : σ) (w : World Fd.Reply Errno σ),
    resolve arch e kernel m passes walk ⟨s, []⟩ = (.ok found, w) ∧ img.length ≤ walk ∧
      Mapped arch e m img (Fd.consumed w.trace) ∧ Placed arch e img (Fd.consumed w.trace)

theorem Resolves.sixtyFour_le {arch : Arch} {e : Endian} {m : Memory 64 UInt8} {img : List UInt8}
    {f : Ptr} (h : Resolves arch e m img (some f)) : 64 ≤ f.toNat := by
  obtain ⟨σ, kernel, passes, walk, s, w, hrun, hwalk, hmapped, hplaced⟩ := h
  obtain ⟨found, hfound, hfailed, hentry⟩ := resolve_entry arch e kernel m img passes walk s _ w
    hrun (by simp) hwalk hmapped
  obtain rfl := Outcome.ok.inj hfound
  have hclean : ¬ ReadFailed w.trace := fun h => by cases hfailed h
  exact ((hentry hclean f).mp rfl).sixtyFour_le hplaced

def refusingOpen : Fd.Kernel Unit := fun _ s => (.error .ENOENT, s)

theorem resolves_none (arch : Arch) (e : Endian) (m : Memory 64 UInt8) (img : List UInt8) :
    Resolves arch e m img none := by
  have hnone : ∀ base, ¬ Published e [] base := by
    intro base h
    rw [← pick_entries_iff, entries_nil] at h
    cases h
  refine ⟨Unit, refusingOpen, 0, img.length, (), _, rfl, le_rfl, ?_, ?_⟩
  · exact fun base h => absurd h (hnone base)
  · exact ⟨fun base h => absurd h (hnone base), fun base _ h => absurd h (hnone base)⟩

theorem published_sampleAuxv {base : Ptr} :
    Published .little sampleAuxv base ↔ base = 0x7000 := by
  have hpick : pick (entries .little sampleAuxv) = some 0x7000 := by decide +kernel
  rw [← pick_entries_iff, hpick, Option.some.injEq, eq_comm]

theorem resolve_entry_smallImage :
    (resolve .x86_64 .little servingAuxv (loaded 0x7000 smallImage) 2 349 ⟨sampleAuxv, []⟩).1 =
      .ok (some 0x7600) := by
  let run := resolve .x86_64 .little servingAuxv (loaded 0x7000 smallImage) 2 349 ⟨sampleAuxv, []⟩
  have hbytes : Fd.consumed run.2.trace = sampleAuxv := by decide +kernel
  have hquiet : ∀ step ∈ run.2.trace, Fd.Step.failure step = none := by decide +kernel
  have hclean : ¬ ReadFailed run.2.trace := by
    rintro ⟨step, hstep, -, code, hcode, -⟩
    rw [hquiet step hstep] at hcode
    cases hcode
  have hmapped : Mapped .x86_64 .little (loaded 0x7000 smallImage) smallImage
      (Fd.consumed run.2.trace) := by
    intro base hbase
    obtain rfl := published_sampleAuxv.mp (hbytes ▸ hbase)
    exact ⟨holds_loaded _ wellFormed_smallImage.fits, wellFormed_smallImage⟩
  have hlen : smallImage.length ≤ 349 := by decide +kernel
  have hret : run.1 ≠ .diverge := by decide +kernel
  obtain ⟨found, hfound, -, hentry⟩ := resolve_entry .x86_64 .little servingAuxv _ smallImage 2 349
    sampleAuxv run.1 run.2 (Prod.eta _).symm hret hlen hmapped
  rw [hfound, (hentry hclean 0x7600).mpr ⟨0x7000, ?_, by decide +kernel⟩]
  rw [hbytes]
  exact published_sampleAuxv.mpr rfl

def innerImage : List UInt8 := smallImage.set 305 0x11

theorem wellFormed_innerImage : WellFormed .x86_64 .little innerImage := by
  have hload : loadSegment .little innerImage = some ⟨1, 0, 0x1000⟩ := by decide +kernel
  have hdyn : dynamicSegment .little innerImage = some ⟨2, 176, 0x10b0⟩ := by decide +kernel
  have hok : DynamicTableOk .little innerImage 176 := by
    unfold DynamicTableOk
    decide +kernel
  have htable : dynamicTable .little innerImage 176 = [⟨4, 0x10f0⟩, ⟨5, 0x1140⟩, ⟨6, 0x10f8⟩] := by
    decide +kernel
  have hsyms : SymbolTableOk .little innerImage 0x140 0xf8 0xf0 := by
    unfold SymbolTableOk
    decide +kernel
  exact wellFormed_of_tables (by decide +kernel) (by decide +kernel) (by decide +kernel)
    (by decide +kernel) (by decide +kernel) (by decide +kernel) (by decide +kernel) hload hdyn hok
    (congrArg (entryOf · dtStrtab) htable) (congrArg (entryOf · dtSymtab) htable)
    (congrArg (entryOf · dtHash) htable) hsyms

theorem resolves_innerImage :
    Resolves .x86_64 .little (loaded 0x7000 innerImage) innerImage (some 0x7100) := by
  let run := resolve .x86_64 .little servingAuxv (loaded 0x7000 innerImage) 2 349 ⟨sampleAuxv, []⟩
  have hlen : innerImage.length = 349 := by decide +kernel
  have hfound : run.1 = .ok (some 0x7100) := by decide +kernel
  have hbytes : Fd.consumed run.2.trace = sampleAuxv := by decide +kernel
  have hentry : resolved .x86_64 .little 0x7000 innerImage = some 0x7100 := by decide +kernel
  have hrun : run = (.ok (some 0x7100), run.2) := by rw [← hfound]
  refine ⟨_, servingAuxv, 2, 349, sampleAuxv, run.2, hrun, hlen.le, ?_, ?_⟩
  · intro base hbase
    obtain rfl := published_sampleAuxv.mp (hbytes ▸ hbase)
    exact ⟨holds_loaded _ wellFormed_innerImage.fits, wellFormed_innerImage⟩
  · refine ⟨fun base hbase => ?_, fun base f hbase hf => ?_⟩
    · obtain rfl := published_sampleAuxv.mp (hbytes ▸ hbase)
      rw [hlen]
      decide
    · obtain rfl := published_sampleAuxv.mp (hbytes ▸ hbase)
      obtain rfl := Option.some.inj (hentry.symm.trans hf)
      have hin : 0x100 < innerImage.length := by rw [hlen]; decide
      exact ⟨0x100, by decide, hin, rfl⟩

end RustyLibc.Vdso
