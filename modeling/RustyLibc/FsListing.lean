import RustyLibc.FsDirents
import RustyLibc.RecordQueue
import RustyLibc.SyscallReturn

/-!
# Listing a directory (`fs.rs`, `getdents64` and `dirents`)

An open directory hands its records out in batches, as getdents64(2) says: whole
records only, at least one as long as the first fits, `EINVAL` if it does not,
and 0 at the end. How many it hands out and whether a call fails for reasons of
its own is up to the kernel. The caller gives a buffer to each call, in whatever
state an earlier call has left it, and runs `dirents` over the filled part.

`Listed` says once what a run can do, with one constructor for each way a call
ends. What is known of whole runs are inductions over it.
-/

namespace RustyLibc.Fs
open Outcome ByteOrder RecordStream RecordQueue Linux

/-- What getdents64(2) leaves open: for each call, how many more records than one
it is ready to hand out, and why it fails, if it does. -/
structure DirKernel where
  wish : ℕ → ℕ
  refuse : ℕ → Option SysErr

structure Directory where
  ahead : List Entry
  calls : ℕ

variable (e : Endian) (K : DirKernel)

def Directory.next (d : Directory) (room : ℕ) : List Entry :=
  batch (Entry.encode e) (K.wish d.calls) room d.ahead

def sysGetdents64 (d : Directory) (buf : Slice) : BitVec 64 × Slice × Directory :=
  match K.refuse d.calls with
  | some reason => (reason.raw, buf, { d with calls := d.calls + 1 })
  | none =>
    let out := d.next e K buf.len
    if out.isEmpty && !d.ahead.isEmpty then
      (SysErr.EINVAL.raw, buf, { d with calls := d.calls + 1 })
    else
      let bytes := out.flatMap (Entry.encode e)
      (countRet bytes.length, buf.patch 0 bytes, ⟨d.ahead.drop out.length, d.calls + 1⟩)

def getdents64 (d : Directory) (buf : Slice) : Except Errno ℕ × Slice × Directory :=
  let (ret, buf, d) := sysGetdents64 e K d buf
  ((fromRet ret).map BitVec.toNat, buf, d)

def filledEntries (buf : Slice) (n : ℕ) : Outcome Errno (List RawDirent) :=
  if n ≤ buf.len then ofNever (drain (Dirents.next e) (n + 1) (dirents (buf.upTo n))) else .panic

def readEntries (d : Directory) (buf : Slice) : Outcome Errno (List RawDirent) × Directory :=
  let (result, buf, d) := getdents64 e K d buf
  match result with
  | .error code => (.err code, d)
  | .ok n => (filledEntries e buf n, d)

def listing (d : Directory) : List Slice → List (Outcome Errno (List RawDirent)) × Directory
  | [] => ([], d)
  | buf :: bufs =>
    let (result, d) := readEntries e K d buf
    let (results, d) := listing d bufs
    (result :: results, d)

def entriesOf (results : List (Outcome Errno (List RawDirent))) : List RawDirent :=
  results.flatMap fun
    | .ok ds => ds
    | _ => []

theorem filledEntries_encoded (xs : List Entry) (buf : Slice)
    (h : (xs.flatMap (Entry.encode e)).length ≤ buf.len) :
    filledEntries e (buf.patch 0 (xs.flatMap (Entry.encode e)))
      (xs.flatMap (Entry.encode e)).length = .ok (xs.map Entry.dirent) := by
  set bytes := xs.flatMap (Entry.encode e) with hbytes
  rw [filledEntries, Slice.len_patch, if_pos h, drain_dirents, Slice.bytes_upTo_patch h, hbytes,
    Framing.drain_encoded (fun x => x.isRecord e) xs (Nat.lt_succ_self _), ofNever]
  exact congrArg Outcome.ok (List.map_congr_left fun x _ => x.direntOf_encode e)

theorem readEntries_cases (d : Directory) (buf : Slice) :
    (∃ reason, K.refuse d.calls = some reason ∧
      readEntries e K d buf = (.err (SysErr.errno reason), ⟨d.ahead, d.calls + 1⟩)) ∨
    (K.refuse d.calls = none ∧ d.ahead ≠ [] ∧ ¬ FirstFits (Entry.encode e) buf.len d.ahead ∧
      readEntries e K d buf = (.err .EINVAL, ⟨d.ahead, d.calls + 1⟩)) ∨
    (K.refuse d.calls = none ∧ (d.ahead = [] ∨ FirstFits (Entry.encode e) buf.len d.ahead) ∧
      readEntries e K d buf = (.ok ((d.next e K buf.len).map Entry.dirent),
        ⟨d.ahead.drop (d.next e K buf.len).length, d.calls + 1⟩)) := by
  rw [readEntries, getdents64, sysGetdents64]
  cases href : K.refuse d.calls with
  | some reason =>
    refine Or.inl ⟨reason, rfl, ?_⟩
    dsimp only
    rw [fromRet_raw]
    rfl
  | none =>
    right
    have hroom : ((d.next e K buf.len).flatMap (Entry.encode e)).length ≤ buf.len :=
      length_batch_le
    have hsmall := hroom.trans_lt buf.len_lt
    by_cases hstuck : d.ahead ≠ [] ∧ ¬ FirstFits (Entry.encode e) buf.len d.ahead
    · have hempty : d.next e K buf.len = [] := batch_eq_nil hstuck.2
      refine Or.inl ⟨rfl, hstuck.1, hstuck.2, ?_⟩
      simp only [hempty, List.isEmpty_nil, Bool.true_and, Bool.not_eq_true',
        List.isEmpty_eq_false_iff.mpr hstuck.1, if_true]
      rw [fromRet_raw]
      rfl
    · have hgo : d.ahead = [] ∨ FirstFits (Entry.encode e) buf.len d.ahead := by
        by_contra hno
        exact hstuck (not_or.mp hno)
      have hcheck : ((d.next e K buf.len).isEmpty && !d.ahead.isEmpty) = false := by
        rcases hgo with hnil | hfits
        · simp [hnil]
        · simp [Directory.next, batch_ne_nil hfits]
      refine Or.inr ⟨rfl, hgo, ?_⟩
      simp only [hcheck, Bool.false_eq_true, if_false]
      rw [fromRet_countRet hsmall]
      simp only [Except.map, toNat_countRet hsmall, filledEntries_encoded e _ buf hroom]

theorem next_eq_nil {d : Directory} {room : ℕ}
    (h : d.ahead = [] ∨ FirstFits (Entry.encode e) room d.ahead) (hnil : d.next e K room = []) :
    d.ahead = [] :=
  h.resolve_right fun hfits => batch_ne_nil hfits hnil

/-- Calls number `n`, `n + 1` and so on with the buffers `bufs` on a directory
with `ahead` in front: their results, and what is still ahead in the end. -/
inductive Listed : ℕ → List Entry → List Slice → List (Outcome Errno (List RawDirent)) →
    List Entry → Prop
  | stop {n : ℕ} {ahead : List Entry} : Listed n ahead [] [] ahead
  | refused {n : ℕ} {ahead left : List Entry} {buf : Slice} {bufs : List Slice}
      {results : List (Outcome Errno (List RawDirent))} (reason : SysErr)
      (why : K.refuse n = some reason) (rest : Listed (n + 1) ahead bufs results left) :
      Listed n ahead (buf :: bufs) (.err (SysErr.errno reason) :: results) left
  | small {n : ℕ} {x : Entry} {ahead left : List Entry} {buf : Slice} {bufs : List Slice}
      {results : List (Outcome Errno (List RawDirent))} (free : K.refuse n = none)
      (big : buf.len < (x.encode e).length)
      (rest : Listed (n + 1) (x :: ahead) bufs results left) :
      Listed n (x :: ahead) (buf :: bufs) (.err .EINVAL :: results) left
  | brought {n : ℕ} (xs : List Entry) {ahead left : List Entry} {buf : Slice} {bufs : List Slice}
      {results : List (Outcome Errno (List RawDirent))} (free : K.refuse n = none)
      (room : (xs.flatMap (Entry.encode e)).length ≤ buf.len) (last : xs = [] → ahead = [])
      (rest : Listed (n + 1) ahead bufs results left) :
      Listed n (xs ++ ahead) (buf :: bufs) (.ok (xs.map Entry.dirent) :: results) left

theorem listing_cons (d : Directory) (buf : Slice) (bufs : List Slice) :
    listing e K d (buf :: bufs) =
      ((readEntries e K d buf).1 :: (listing e K (readEntries e K d buf).2 bufs).1,
        (listing e K (readEntries e K d buf).2 bufs).2) :=
  rfl

theorem listing_listed (d : Directory) (bufs : List Slice) :
    Listed e K d.calls d.ahead bufs (listing e K d bufs).1 (listing e K d bufs).2.ahead := by
  induction bufs generalizing d with
  | nil => exact .stop
  | cons buf bufs ih =>
    have hrest := ih (readEntries e K d buf).2
    rw [listing_cons]
    rcases readEntries_cases e K d buf with ⟨reason, href, hrun⟩ | ⟨href, hne, hbig, hrun⟩ |
      ⟨href, hgo, hrun⟩
    · rw [hrun] at hrest ⊢
      exact .refused reason href hrest
    · rw [hrun] at hrest ⊢
      obtain ⟨x, rest, hahead⟩ := List.exists_cons_of_ne_nil hne
      have hlen : buf.len < (x.encode e).length := by
        by_contra hle
        exact hbig ⟨x, rest, hahead, Nat.not_lt.mp hle⟩
      dsimp only at hrest ⊢
      rw [hahead] at hrest ⊢
      exact .small href hlen hrest
    · rw [hrun] at hrest ⊢
      have hsplit : d.next e K buf.len ++ d.ahead.drop (d.next e K buf.len).length = d.ahead :=
        batch_append_drop
      have hlast : d.next e K buf.len = [] → d.ahead.drop (d.next e K buf.len).length = [] := by
        intro hnil
        rw [next_eq_nil e K hgo hnil]
        exact List.drop_nil
      have hstep := Listed.brought (d.next e K buf.len) href length_batch_le hlast hrest
      rw [hsplit] at hstep
      exact hstep

section Listed

variable {e K} {n : ℕ} {ahead left : List Entry} {bufs : List Slice}
  {results : List (Outcome Errno (List RawDirent))}

theorem Listed.conserves (h : Listed e K n ahead bufs results left) :
    entriesOf results ++ left.map Entry.dirent = ahead.map Entry.dirent := by
  induction h with
  | stop => rfl
  | refused reason why rest ih => exact ih
  | small free big rest ih => exact ih
  | brought xs free room last rest ih =>
    rw [List.map_append, ← ih, ← List.append_assoc]
    rfl

theorem Listed.at_end (h : Listed e K n [] bufs results left) : left = [] := by
  have hsum := h.conserves
  rw [List.map_nil, List.append_eq_nil_iff, List.map_eq_nil_iff] at hsum
  exact hsum.2

theorem Listed.ended (h : Listed e K n ahead bufs results left) (hend : .ok [] ∈ results) :
    left = [] := by
  induction h with
  | stop => cases hend
  | refused reason why rest ih =>
    rcases List.mem_cons.mp hend with hfirst | hlater
    · cases hfirst
    · exact ih hlater
  | small free big rest ih =>
    rcases List.mem_cons.mp hend with hfirst | hlater
    · cases hfirst
    · exact ih hlater
  | brought xs free room last rest ih =>
    rcases List.mem_cons.mp hend with hfirst | hlater
    · rw [Outcome.ok.injEq, eq_comm, List.map_eq_nil_iff] at hfirst
      rw [last hfirst] at rest
      exact rest.at_end
    · exact ih hlater

def DirKernel.served (K : DirKernel) (n count : ℕ) : ℕ :=
  (List.range' n count).countP fun i => (K.refuse i).isNone

theorem DirKernel.served_succ (K : DirKernel) (n count : ℕ) :
    K.served n (count + 1) = K.served (n + 1) count + if (K.refuse n).isNone then 1 else 0 := by
  rw [DirKernel.served, List.range'_succ, List.countP_cons]
  rfl

theorem Listed.completes (h : Listed e K n ahead bufs results left)
    (hroom : ∀ buf ∈ bufs, ∀ x ∈ ahead, (x.encode e).length ≤ buf.len)
    (hcount : ahead.length < K.served n bufs.length) : .ok [] ∈ results := by
  induction h with
  | stop => exact absurd hcount (Nat.not_lt_zero _)
  | refused reason why rest ih =>
    rw [List.length_cons, DirKernel.served_succ, why] at hcount
    exact List.mem_cons_of_mem _ (ih (fun b hb => hroom b (List.mem_cons_of_mem _ hb)) hcount)
  | small free big rest ih =>
    exact absurd (hroom _ List.mem_cons_self _ List.mem_cons_self) (Nat.not_le.mpr big)
  | brought xs free room last rest ih =>
    rw [List.length_cons, DirKernel.served_succ, free, List.length_append] at hcount
    rcases Nat.eq_zero_or_pos xs.length with hnone | hsome
    · rw [List.length_eq_zero_iff.mp hnone]
      exact List.mem_cons_self
    · refine List.mem_cons_of_mem _ (ih (fun b hb x hx => ?_) ?_)
      · exact hroom b (List.mem_cons_of_mem _ hb) x (List.mem_append_right _ hx)
      · simp only [Option.isNone_none, if_true] at hcount
        omega

end Listed

/-- Reading a directory through `getdents64` and `dirents`, for every way the
kernel may cut its records into batches or fail, and with any buffers: each call
fails exactly if it is refused or its buffer has no room for the record in front,
and brings the entries that come next otherwise, at least one while there are any.
The entries that have come and those still ahead are those of the directory in
their order, each once, and the call that reports 0 has reported all. -/
theorem directory_listed_once (entries : List Entry) (bufs : List Slice) :
    let run := listing e K ⟨entries, 0⟩ bufs
    Listed e K 0 entries bufs run.1 run.2.ahead ∧
    entriesOf run.1 ++ run.2.ahead.map Entry.dirent = entries.map Entry.dirent ∧
    (.ok [] ∈ run.1 → entriesOf run.1 = entries.map Entry.dirent) ∧
    ((∀ buf ∈ bufs, ∀ x ∈ entries, (x.encode e).length ≤ buf.len) →
      entries.length < K.served 0 bufs.length →
      .ok [] ∈ run.1 ∧ entriesOf run.1 = entries.map Entry.dirent) := by
  intro run
  have hlisted : Listed e K 0 entries bufs run.1 run.2.ahead := listing_listed e K ⟨entries, 0⟩ bufs
  have hend : .ok [] ∈ run.1 → entriesOf run.1 = entries.map Entry.dirent := by
    intro hmem
    rw [← hlisted.conserves, hlisted.ended hmem, List.map_nil, List.append_nil]
  refine ⟨hlisted, hlisted.conserves, hend, fun hroom hcount => ?_⟩
  have hmem := hlisted.completes hroom hcount
  exact ⟨hmem, hend hmem⟩

end RustyLibc.Fs
