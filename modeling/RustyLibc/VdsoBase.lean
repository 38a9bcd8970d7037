import RustyLibc.FdTable
import RustyLibc.VdsoLookup

/-!
# The base of the vDSO from the auxiliary vector (`vdso.rs`)

`vdsoBase` reads `/proc/self/auxv` and looks for the entry with the key
`AT_SYSINFO_EHDR`. A vector is the list of its whole entries of 16 bytes. The
`?` behind `read_all` leaves the function between `open` and `close`, so a read
that fails leaves the descriptor behind; every other way out has closed it.
-/

namespace RustyLibc.Vdso
open ByteOrder HostCalls Outcome Resources

def auxvPath : List UInt8 := Text.utf8 "/proc/self/auxv".toList

def atNull : BitVec 64 := 0
def atSysinfoEhdr : BitVec 64 := 33

def u64FromNe (e : Endian) (bs : List UInt8) : BitVec 64 := BitVec.ofNat 64 (neVal e bs)

def auxvStep (e : Endian) (buf : Slice) (n i : ℕ) : Outcome Errno (Pass ℕ (Option Ptr)) := do
  let stop ← uadd i 16
  if stop ≤ n then do
    let mid ← uadd i 8
    let keyBytes ← buf.range i mid
    let valBytes ← buf.range mid stop
    let key := u64FromNe e keyBytes
    let val := u64FromNe e valBytes
    if key = atSysinfoEhdr then pure (.done (if val = 0 then none else some val))
    else if key = atNull then pure (.done none)
    else pure (.next stop)
  else pure (.done none)

/-- The scan moves on by 16 bytes, so the budget is never spent. -/
def scanAuxv (e : Endian) (buf : Slice) (n : ℕ) : Outcome Errno (Option Ptr) :=
  loop (auxvStep e buf n) (n + 1) 0

theorem length_page_lt : (List.replicate 4096 (0 : UInt8)).length < 2 ^ 63 := by
  rw [List.length_replicate]
  decide

def emptyBuf : Slice := ⟨List.replicate 4096 0, length_page_lt⟩

variable {σ : Type}

/-- `vdso_base`, with the passes of `read_all` that are watched. -/
def vdsoBase (e : Endian) (kernel : Fd.Kernel σ) (passes : ℕ) : Fd.Call σ (Option Ptr) := do
  match ← Sys.attempt kernel (.openat Fd.atFdcwd auxvPath Fd.oRdonly 0) with
  | .error _ => pure none
  | .ok fd => do
    match ← Sys.capture (Fd.readAll kernel fd passes emptyBuf) with
    | .error _ => pure none
    | .ok (buf, n) => do
      let _ ← Sys.attempt kernel (.close fd)
      Sys.lift (scanAuxv e buf n)

def entries (e : Endian) (bs : List UInt8) : List (BitVec 64 × BitVec 64) :=
  if 16 ≤ bs.length then
    (u64FromNe e (bs.take 8), u64FromNe e ((bs.drop 8).take 8)) :: entries e (bs.drop 16)
  else []
termination_by bs.length
decreasing_by
  rw [List.length_drop]
  omega

/-- The first entry with the key `AT_SYSINFO_EHDR` comes before any entry with
the key `AT_NULL` and holds `v`, which is not zero. -/
def Published (e : Endian) (bs : List UInt8) (v : Ptr) : Prop :=
  v ≠ 0 ∧ ∃ front back, entries e bs = front ++ (atSysinfoEhdr, v) :: back ∧
    ∀ x ∈ front, x.1 ≠ atSysinfoEhdr ∧ x.1 ≠ atNull

def pick : List (BitVec 64 × BitVec 64) → Option Ptr
  | [] => none
  | (key, val) :: rest =>
    if key = atSysinfoEhdr then if val = 0 then none else some val
    else if key = atNull then none
    else pick rest

theorem pick_eq_some_iff {es : List (BitVec 64 × BitVec 64)} {v : Ptr} :
    pick es = some v ↔ v ≠ 0 ∧ ∃ front back, es = front ++ (atSysinfoEhdr, v) :: back ∧
      ∀ x ∈ front, x.1 ≠ atSysinfoEhdr ∧ x.1 ≠ atNull := by
  induction es with
  | nil => simp [pick]
  | cons entry rest ih =>
    obtain ⟨key, val⟩ := entry
    rw [pick]
    constructor
    · intro h
      split_ifs at h with hkey hval hnull
      · obtain rfl := Option.some.inj h
        exact ⟨hval, [], rest, by rw [hkey]; rfl, fun x hx => absurd hx List.not_mem_nil⟩
      · obtain ⟨hne, front, back, hrest, hfront⟩ := ih.mp h
        refine ⟨hne, (key, val) :: front, back, by rw [hrest]; rfl, ?_⟩
        exact List.forall_mem_cons.mpr ⟨⟨hkey, hnull⟩, hfront⟩
    · rintro ⟨hne, front, back, hes, hfront⟩
      cases front with
      | nil =>
        obtain ⟨hentry, -⟩ := List.cons.inj hes
        obtain ⟨rfl, rfl⟩ := Prod.mk.inj hentry
        rw [if_pos rfl, if_neg hne]
      | cons x front =>
        obtain ⟨hentry, hrest⟩ := List.cons.inj hes
        obtain ⟨⟨hkey, hnull⟩, hfront⟩ := List.forall_mem_cons.mp hfront
        rw [← hentry] at hkey hnull
        rw [if_neg hkey, if_neg hnull]
        exact ih.mpr ⟨hne, front, back, hrest, hfront⟩

theorem length_left {buf : Slice} {n : ℕ} (hn : n ≤ buf.len) (i : ℕ) :
    ((buf.bytes.take n).drop i).length = n - i := by
  rw [Slice.len] at hn
  rw [List.length_drop, List.length_take, Nat.min_eq_left hn]

theorem auxvStep_eq (e : Endian) {buf : Slice} {n i : ℕ} (hn : n ≤ buf.len) (hi : i ≤ n) :
    auxvStep e buf n i =
      let bs := (buf.bytes.take n).drop i
      if 16 ≤ bs.length then
        if u64FromNe e (bs.take 8) = atSysinfoEhdr then
          .ok (.done (if u64FromNe e ((bs.drop 8).take 8) = 0 then none
            else some (u64FromNe e ((bs.drop 8).take 8))))
        else if u64FromNe e (bs.take 8) = atNull then .ok (.done none)
        else .ok (.next (i + 16))
      else .ok (.done none) := by
  have hlt := buf.len_lt
  have hlen := length_left hn i
  rw [auxvStep, uadd_eq_ok (by omega), ok_bind]
  dsimp only
  rw [hlen]
  by_cases hin : i + 16 ≤ n
  · have hkey : (buf.range i (i + 8) : Outcome Errno (List UInt8)) =
        .ok (((buf.bytes.take n).drop i).take 8) := by
      rw [Slice.range_of_le (by omega) (by omega), Nat.add_sub_cancel_left,
        Slice.run_eq_run_take _ (n := n) (by omega)]
    have hval : (buf.range (i + 8) (i + 16) : Outcome Errno (List UInt8)) =
        .ok ((((buf.bytes.take n).drop i).drop 8).take 8) := by
      rw [Slice.range_of_le (by omega) (by omega), List.drop_drop,
        show i + 16 - (i + 8) = 8 by omega, Slice.run_eq_run_take _ (n := n) (by omega)]
    rw [if_pos hin, if_pos (by omega), uadd_eq_ok (by omega), ok_bind, hkey, ok_bind, hval, ok_bind]
    rfl
  · rw [if_neg hin, if_neg (by omega)]
    rfl

theorem loop_auxvStep (e : Endian) {buf : Slice} {n i fuel : ℕ} (hn : n ≤ buf.len) (hi : i ≤ n)
    (hfuel : n - i < fuel) :
    loop (auxvStep e buf n) fuel i = .ok (pick (entries e ((buf.bytes.take n).drop i))) := by
  induction fuel generalizing i with
  | zero => omega
  | succ fuel ih =>
    have hlen := length_left hn i
    rw [loop_succ, auxvStep_eq e hn hi, entries]
    dsimp only
    by_cases hin : 16 ≤ ((buf.bytes.take n).drop i).length
    · rw [if_pos hin, if_pos hin, pick]
      split_ifs with hkey hval hnull
      · rfl
      · rfl
      · rfl
      · rw [List.drop_drop]
        exact ih (by omega) (by omega)
    · rw [if_neg hin, if_neg hin]
      rfl

theorem scanAuxv_front (e : Endian) {buf : Slice} {bs : List UInt8} (h : bs.length ≤ buf.len) :
    scanAuxv e (buf.patch 0 bs) bs.length = .ok (pick (entries e bs)) := by
  have hfits : bs.length ≤ (buf.patch 0 bs).len := by rwa [Slice.len_patch]
  have hscan := loop_auxvStep e hfits (Nat.zero_le _) (Nat.lt_succ_self _)
  rwa [Slice.bytes_patch_zero h, List.take_left, List.drop_zero] at hscan

def ReadFailed (trace : List Fd.Step) : Prop :=
  ∃ step ∈ trace, step.request.IsRead ∧ ∃ code, step.failure = some code ∧ code ≠ .EINTR

/-- The descriptor table is the one on entry, and if no read failed, the result
is what the vector of the bytes that were read publishes. -/
def Discovers (e : Endian) (r : Outcome Errno (Option Ptr)) (trace : List Fd.Step) : Prop :=
  (∀ T : Fd.Descriptors, Fresh T (Fd.effects trace) → after T (Fd.effects trace) = T) ∧
    ∃ found, r = .ok found ∧ (¬ ReadFailed trace → (Fd.consumed trace).length ≤ 4096 ∧
      ∀ v, found = some v ↔ Published e (Fd.consumed trace) v)

abbrev openAuxv : Fd.Request := .openat Fd.atFdcwd auxvPath Fd.oRdonly 0

/-- The ways in which `vdso_base` returns: without a descriptor, with the
descriptor closed behind the reads, and behind a read that failed; or the reads
are still going on when the watch ends. -/
theorem vdsoBase_cases {e : Endian} {kernel : Fd.Kernel σ} {passes : ℕ} {s : σ}
    {r : Outcome Errno (Option Ptr)} {w : World Fd.Reply Errno σ}
    (hrun : vdsoBase e kernel passes ⟨s, []⟩ = (r, w)) :
    (∃ code, r = .ok none ∧ w.trace = [⟨openAuxv, .error code⟩]) ∨
    ∃ fd t, (∀ x ∈ t, x.request.IsRead) ∧ t.length ≤ Fd.interruptions t + 4097 ∧
      ((∃ reply, r = .ok (pick (entries e (Fd.consumed t))) ∧
          w.trace = ⟨openAuxv, .ok fd⟩ :: (t ++ [⟨.close fd, reply⟩]) ∧ Fd.Uninjured t ∧
          (Fd.consumed t).length ≤ 4096) ∨
        (∃ code, r = .ok none ∧ w.trace = ⟨openAuxv, .ok fd⟩ :: t ∧ code ≠ .EINTR ∧
          Fd.Reported code t) ∨
        r = .diverge ∧ w.trace = ⟨openAuxv, .ok fd⟩ :: t ∧ t.length = passes) := by
  rcases hopen : kernel openAuxv s with ⟨reply, s₁⟩
  have hstart := Sys.attempt_of_reply (w := ⟨s, []⟩) hopen
  cases reply with
  | error code =>
    rw [vdsoBase, Sys.bind_of_ok hstart] at hrun
    obtain ⟨rfl, rfl⟩ := Prod.mk.inj hrun
    exact Or.inl ⟨code, rfl, rfl⟩
  | ok fd =>
    rw [vdsoBase, Sys.bind_of_ok hstart] at hrun
    dsimp only at hrun
    rw [List.nil_append] at hrun
    obtain ⟨hframe, hreads⟩ := Fd.readAll_asks kernel fd passes emptyBuf s₁ [⟨openAuxv, .ok fd⟩]
    have hends := Fd.readAll_ends kernel fd passes emptyBuf s₁
    have hclean := Fd.readAll_interrupted kernel fd passes emptyBuf s₁
    have hcalls := Fd.readAll_answers kernel fd passes emptyBuf s₁
    have hlen : emptyBuf.len = 4096 := List.length_replicate
    rcases hread : Fd.readAll kernel fd passes emptyBuf ⟨s₁, []⟩ with ⟨r', v⟩
    rw [hread] at hframe hends hclean hreads hcalls
    rw [hlen] at hcalls
    refine Or.inr ⟨fd, v.trace, hreads, hcalls, ?_⟩
    cases r' with
    | ok st =>
      obtain ⟨rfl, hfits, -⟩ := hends
      rw [Sys.bind_of_ok (Sys.capture_of_ok hframe)] at hrun
      dsimp only at hrun
      rw [Sys.bind_of_ok (Sys.attempt_apply _ _ _), scanAuxv_front e hfits] at hrun
      obtain ⟨rfl, rfl⟩ := Prod.mk.inj hrun
      exact Or.inl ⟨_, rfl, rfl, hclean, hlen ▸ hfits⟩
    | err code =>
      rw [Sys.bind_of_ok (Sys.capture_of_err hframe)] at hrun
      obtain ⟨rfl, rfl⟩ := Prod.mk.inj hrun
      exact Or.inr (Or.inl ⟨code, rfl, rfl, hends⟩)
    | panic => exact hends.elim
    | diverge =>
      obtain ⟨st, hreading⟩ := hends
      change Sys.bind (Sys.capture _) _ _ = _ at hrun
      rw [Sys.bind, Sys.capture, hframe] at hrun
      obtain ⟨rfl, rfl⟩ := Prod.mk.inj hrun
      exact Or.inr (Or.inr ⟨rfl, rfl, hreading.answers⟩)

theorem effects_opened (fd : Fd.RawFd) (t : List Fd.Step) :
    Fd.effects (⟨openAuxv, .ok fd⟩ :: t) = .acquire fd (.file auxvPath) :: Fd.effects t := rfl

theorem effects_closed {t : List Fd.Step} (h : ∀ x ∈ t, x.request.IsRead) (fd : Fd.RawFd)
    (reply : Except Errno (Fd.Reply (.close fd))) :
    Fd.effects (t ++ [⟨.close fd, reply⟩]) = [.release fd] := by
  rw [Fd.effects_append, Fd.effects_of_reads h]
  rfl

theorem pick_entries_iff {e : Endian} {bs : List UInt8} {v : Ptr} :
    pick (entries e bs) = some v ↔ Published e bs v :=
  pick_eq_some_iff

theorem entries_nil (e : Endian) : entries e [] = [] := by
  rw [entries, if_neg (by decide)]

theorem not_discovers_of_leak {trace : List Fd.Step} {fd : Fd.RawFd} {v : Fd.Opened}
    (h : Fd.effects trace = [.acquire fd v]) (e : Endian) (r : Outcome Errno (Option Ptr)) :
    ¬ Discovers e r trace := by
  -- an empty table does not stay empty
  intro hfinds
  have hsame := hfinds.1 (fun _ => none)
  rw [h] at hsame
  exact after_acquire_ne _ rfl (hsame ⟨rfl, trivial⟩)

/-- `vdso_base` leaves the descriptor table as it was, and finds what the vector
publishes, exactly if no read fails with an error other than `EINTR`. -/
theorem vdsoBase_discovers_iff (e : Endian) (kernel : Fd.Kernel σ) (passes : ℕ) (s : σ)
    (r : Outcome Errno (Option Ptr)) (w : World Fd.Reply Errno σ)
    (hrun : vdsoBase e kernel passes ⟨s, []⟩ = (r, w)) (hret : r ≠ .diverge) :
    Discovers e r w.trace ↔ ¬ ReadFailed w.trace := by
  rcases vdsoBase_cases hrun with ⟨code, rfl, htrace⟩ |
    ⟨fd, t, hreads, -, ⟨reply, rfl, htrace, hclean, hfits⟩ |
      ⟨code, rfl, htrace, hne, step, hstep, hcode⟩ | ⟨rfl, -⟩⟩
  · rw [htrace]
    refine iff_of_true ⟨fun T _ => rfl, none, rfl, fun _ => ⟨Nat.zero_le _, fun v => ?_⟩⟩ ?_
    · change none = some v ↔ Published e [] v
      rw [← pick_entries_iff, entries_nil]
      rfl
    · rintro ⟨step, hstep, hread, -⟩
      rw [List.mem_singleton.mp hstep] at hread
      exact hread
  · have hbytes : Fd.consumed w.trace = Fd.consumed t := by
      rw [htrace]
      change Fd.consumed (t ++ [⟨.close fd, reply⟩]) = _
      rw [Fd.consumed_append, Fd.consumed_singleton]
      exact List.append_nil _
    have heffects : Fd.effects w.trace = [.acquire fd (.file auxvPath), .release fd] := by
      rw [htrace, effects_opened, effects_closed hreads]
    refine iff_of_true ⟨fun T hfresh => ?_, _, rfl, fun _ => ?_⟩ ?_
    · rw [heffects] at hfresh ⊢
      exact (Paired.single fd _).after_eq hfresh
    · rw [hbytes]
      exact ⟨hfits, fun v => pick_entries_iff⟩
    · rintro ⟨step, hstep, hread, code, hcode, hne⟩
      rw [htrace] at hstep
      rcases List.mem_cons.mp hstep with rfl | hstep
      · exact hread
      · rcases List.mem_append.mp hstep with hmem | hlast
        · exact hne (hclean step hmem code hcode)
        · rw [List.mem_singleton.mp hlast] at hread
          exact hread
  · have heffects : Fd.effects w.trace = [.acquire fd (.file auxvPath)] := by
      rw [htrace, effects_opened, Fd.effects_of_reads hreads]
    refine iff_of_false (not_discovers_of_leak heffects e _) (not_not_intro ?_)
    rw [htrace]
    exact ⟨step, List.mem_cons_of_mem _ hstep, hreads step hstep, code, hcode, hne⟩
  · exact absurd rfl hret

def servingAuxv : Fd.Kernel (List UInt8)
  | .openat _ _ _ _, left => (.ok 3, left)
  | .read _ len, left => (.ok ⟨left.take len, List.length_take_le _ _⟩, left.drop len)
  | .write _ _, left => (.error .EINVAL, left)
  | .close _, left => (.ok (), left)

def sampleAuxv : List UInt8 :=
  [6, 0, 0, 0, 0, 0, 0, 0, 0, 0x10, 0, 0, 0, 0, 0, 0,
    33, 0, 0, 0, 0, 0, 0, 0, 0, 0x70, 0, 0, 0, 0, 0, 0]

theorem vdsoBase_discovers_sampleAuxv :
    (vdsoBase .little servingAuxv 2 ⟨sampleAuxv, []⟩).1 = .ok (some 0x7000) ∧
      Discovers .little (vdsoBase .little servingAuxv 2 ⟨sampleAuxv, []⟩).1
        (vdsoBase .little servingAuxv 2 ⟨sampleAuxv, []⟩).2.trace := by
  have hfound : (vdsoBase .little servingAuxv 2 ⟨sampleAuxv, []⟩).1 = .ok (some 0x7000) := by
    decide +kernel
  have hquiet : ∀ step ∈ (vdsoBase .little servingAuxv 2 ⟨sampleAuxv, []⟩).2.trace,
      Fd.Step.failure step = none := by decide +kernel
  have hret : (vdsoBase .little servingAuxv 2 ⟨sampleAuxv, []⟩).1 ≠ .diverge := by
    rw [hfound]
    simp
  refine ⟨hfound, (vdsoBase_discovers_iff .little servingAuxv 2 sampleAuxv _ _ (Prod.eta _).symm
    hret).mpr ?_⟩
  rintro ⟨step, hstep, -, code, hcode, -⟩
  rw [hquiet step hstep] at hcode
  cases hcode

def failingReads : Fd.Kernel Unit
  | .openat _ _ _ _, s => (.ok 3, s)
  | .read _ _, s => (.error Errno.EIO, s)
  | .write _ _, s => (.error .EINVAL, s)
  | .close _, s => (.ok (), s)

theorem vdsoBase_failingReads :
    (vdsoBase .little failingReads 1 ⟨(), []⟩).1 = .ok none ∧
      Fd.effects (vdsoBase .little failingReads 1 ⟨(), []⟩).2.trace =
        [.acquire 3 (.file auxvPath)] ∧
      ¬ Discovers .little (vdsoBase .little failingReads 1 ⟨(), []⟩).1
        (vdsoBase .little failingReads 1 ⟨(), []⟩).2.trace := by
  have heffects : Fd.effects (vdsoBase .little failingReads 1 ⟨(), []⟩).2.trace =
      [.acquire 3 (.file auxvPath)] := by decide +kernel
  exact ⟨by decide +kernel, heffects, not_discovers_of_leak heffects _ _⟩

end RustyLibc.Vdso
