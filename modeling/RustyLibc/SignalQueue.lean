import RustyLibc.RecordStream
import RustyLibc.SignalWait
import RustyLibc.StructLayout

/-!
# Signals with a payload (`signal.rs`, `sigqueue` and `signalfd`)

Any processes send signals to one process, which has them blocked and reads them
from a signalfd made with `SFD_NONBLOCK`. `sigqueue` lays a `SigqueueInfo` out for
the kernel, the kernel lays out a `SignalfdSiginfo` for the reader, and both are
128 bytes. The kernel follows rt_sigqueueinfo(2), signal(7) and signalfd(2): a
real-time signal is queued each time or refused, another one is pending at most
once and its payload may be lost; a read takes the pending signals of its mask,
those of one number in the order they were sent. Which number comes first, whether
a sender is refused and whether the queue is full is up to the kernel.
-/

namespace RustyLibc.Signal
open Outcome ByteOrder RecordStream StructLayout Linux

variable (e : Endian)

structure SigqueueInfo where
  siSigno : BitVec 32
  siErrno : BitVec 32
  siCode : BitVec 32
  siPid : BitVec 32
  siUid : BitVec 32
  siValue : BitVec 64

def SigqueueInfo.bytes (i : SigqueueInfo) : List UInt8 :=
  image e [⟨4, i.siSigno.toNat⟩, ⟨4, i.siErrno.toNat⟩, ⟨4, i.siCode.toNat⟩, ⟨4, 0⟩,
    ⟨4, i.siPid.toNat⟩, ⟨4, i.siUid.toNat⟩, ⟨8, i.siValue.toNat⟩, ⟨96, 0⟩]

def siQueue : BitVec 32 := -1
def siTkill : BitVec 32 := -6

structure Queued where
  signo : BitVec 32
  errno : BitVec 32
  code : BitVec 32
  pid : BitVec 32
  uid : BitVec 32
  value : BitVec 64
  deriving DecidableEq, Repr

def readInfo (sig : BitVec 32) (bytes : List UInt8) : Queued where
  signo := sig
  errno := .ofNat 32 (fieldAt e bytes 4 4)
  code := .ofNat 32 (fieldAt e bytes 8 4)
  pid := .ofNat 32 (fieldAt e bytes 16 4)
  uid := .ofNat 32 (fieldAt e bytes 20 4)
  value := .ofNat 64 (fieldAt e bytes 24 8)

structure Sender where
  pid : BitVec 32
  uid : BitVec 32

structure Verdict where
  refuse : Option SysErr
  full : Bool

def isRealTime (sig : BitVec 32) : Bool := decide (32 ≤ sig.toNat)

def sysRtSigqueueinfo (v : Verdict) (pending : List Queued) (sender target sig : BitVec 32)
    (info : List UInt8) : BitVec 64 × List Queued :=
  let q := readInfo e sig info
  if (0 ≤ q.code.toInt ∨ q.code = siTkill) ∧ sender ≠ target then (SysErr.EPERM.raw, pending)
  else match v.refuse with
    | some reason => (reason.raw, pending)
    | none =>
      if 64 < sig.toNat then (SysErr.EINVAL.raw, pending)
      else if sig = 0 then (0, pending)
      else if !isRealTime sig && pending.any (·.signo == sig) then (0, pending)
      else if v.full then
        if isRealTime sig then (SysErr.EAGAIN.raw, pending)
        else (0, pending ++ [⟨sig, 0, 0, 0, 0, 0⟩])
      else (0, pending ++ [q])

def sigqueue (v : Verdict) (pending : List Queued) (self : Sender) (pid sig : BitVec 32)
    (value : BitVec 64) : Except Errno Unit × List Queued :=
  let info : SigqueueInfo := ⟨sig, 0, siQueue, self.pid, self.uid, value⟩
  let (ret, pending) := sysRtSigqueueinfo e v pending self.pid pid sig (info.bytes e)
  (unitRet ret, pending)

structure SignalfdSiginfo where
  ssiSigno : BitVec 32
  ssiErrno : BitVec 32
  ssiCode : BitVec 32
  ssiPid : BitVec 32
  ssiUid : BitVec 32
  ssiInt : BitVec 32
  ssiPtr : BitVec 64
  deriving DecidableEq, Repr

def recordSize : ℕ := 128

def SignalfdSiginfo.ofBytes (bytes : List UInt8) : SignalfdSiginfo where
  ssiSigno := .ofNat 32 (fieldAt e bytes 0 4)
  ssiErrno := .ofNat 32 (fieldAt e bytes 4 4)
  ssiCode := .ofNat 32 (fieldAt e bytes 8 4)
  ssiPid := .ofNat 32 (fieldAt e bytes 12 4)
  ssiUid := .ofNat 32 (fieldAt e bytes 16 4)
  ssiInt := .ofNat 32 (fieldAt e bytes 44 4)
  ssiPtr := .ofNat 64 (fieldAt e bytes 48 8)

/-- The fields the kernel writes, up to `ssi_arch` and the padding. -/
def Queued.fields (q : Queued) : List Field :=
  [⟨4, q.signo.toNat⟩, ⟨4, q.errno.toNat⟩, ⟨4, q.code.toNat⟩, ⟨4, q.pid.toNat⟩, ⟨4, q.uid.toNat⟩,
    ⟨4, 0⟩, ⟨4, 0⟩, ⟨4, 0⟩, ⟨4, 0⟩, ⟨4, 0⟩, ⟨4, 0⟩, ⟨4, q.value.toNat % 2 ^ 32⟩,
    ⟨8, q.value.toNat⟩, ⟨8, 0⟩, ⟨8, 0⟩, ⟨8, 0⟩, ⟨2, 0⟩, ⟨2, 0⟩, ⟨4, 0⟩, ⟨8, 0⟩, ⟨4, 0⟩, ⟨28, 0⟩]

def Queued.record (q : Queued) : List UInt8 := image e q.fields

def Queued.view (q : Queued) : SignalfdSiginfo :=
  ⟨q.signo, q.errno, q.code, q.pid, q.uid, q.value.setWidth 32, q.value⟩

def inMask (mask : Sigset) (q : Queued) : Bool := (blockable mask).getLsbD (q.signo.toNat - 1)

/-- The next signal of the mask: of the number the kernel favours if there is one,
of the number that has waited longest otherwise. -/
def nextSignal (favours : List Queued → BitVec 32) (mask : Sigset) (pending : List Queued) :
    Option (Queued × List Queued) :=
  let mine := pending.filter (inMask mask)
  match (mine.find? (·.signo == favours pending)).or mine.head? with
  | none => none
  | some x => match pending.find? (·.signo == x.signo) with
    | none => none
    | some q => some (q, pending.eraseP (·.signo == x.signo))

def takeSignals (favours : List Queued → BitVec 32) (mask : Sigset) :
    ℕ → List Queued → List Queued × List Queued
  | 0, pending => ([], pending)
  | n + 1, pending => match nextSignal favours mask pending with
    | none => ([], pending)
    | some (q, pending) =>
      let (out, pending) := takeSignals favours mask n pending
      (q :: out, pending)

def sysReadSignalfd (favours : List Queued → BitVec 32) (mask : Sigset) (pending : List Queued)
    (buf : Slice) : BitVec 64 × Slice × List Queued :=
  if buf.len / recordSize = 0 then (SysErr.EINVAL.raw, buf, pending)
  else
    let (out, rest) := takeSignals favours mask (buf.len / recordSize) pending
    if out.isEmpty then (SysErr.EAGAIN.raw, buf, pending)
    else
      let bytes := out.flatMap (Queued.record e)
      (countRet bytes.length, buf.patch 0 bytes, rest)

def recordFraming : Framing UInt8 SignalfdSiginfo where
  size bs := if recordSize ≤ bs.length then some recordSize else none
  view := SignalfdSiginfo.ofBytes e
  size_pos := by
    intro bs k h
    split_ifs at h
    cases h
    decide
  size_le := by
    intro bs k h
    split_ifs at h with hk
    cases h
    exact hk
  size_take := by
    intro bs k h rest
    split_ifs at h with hk
    cases h
    have hlen : (bs.take recordSize).length = recordSize := List.length_take_of_le hk
    rw [if_pos]
    rw [List.length_append, hlen]
    exact Nat.le_add_right _ _

def readSignals (favours : List Queued → BitVec 32) (mask : Sigset) (pending : List Queued)
    (buf : Slice) : Outcome Errno (List SignalfdSiginfo) × List Queued :=
  let (ret, buf, pending) := sysReadSignalfd e favours mask pending buf
  match fromRet ret with
  | .error code => (.err code, pending)
  | .ok n =>
    (if n.toNat ≤ buf.len then
      drain (recordFraming e).next (n.toNat + 1) (buf.upTo n.toNat).bytes
    else .panic, pending)

theorem toNat_lt_pow (x : BitVec 32) : x.toNat < 256 ^ 4 := x.isLt

theorem toNat_lt_pow_eight (x : BitVec 64) : x.toNat < 256 ^ 8 := x.isLt

theorem readInfo_bytes (sig : BitVec 32) (i : SigqueueInfo) :
    readInfo e sig (i.bytes e) = ⟨sig, i.siErrno, i.siCode, i.siPid, i.siUid, i.siValue⟩ := by
  have herrno : fieldAt e (i.bytes e) 4 4 = i.siErrno.toNat :=
    fieldAt_getElem e 1 rfl rfl (toNat_lt_pow _)
  have hcode : fieldAt e (i.bytes e) 8 4 = i.siCode.toNat :=
    fieldAt_getElem e 2 rfl rfl (toNat_lt_pow _)
  have hpid : fieldAt e (i.bytes e) 16 4 = i.siPid.toNat :=
    fieldAt_getElem e 4 rfl rfl (toNat_lt_pow _)
  have huid : fieldAt e (i.bytes e) 20 4 = i.siUid.toNat :=
    fieldAt_getElem e 5 rfl rfl (toNat_lt_pow _)
  have hvalue : fieldAt e (i.bytes e) 24 8 = i.siValue.toNat :=
    fieldAt_getElem e 6 rfl rfl (toNat_lt_pow_eight _)
  simp only [readInfo, herrno, hcode, hpid, huid, hvalue, BitVec.ofNat_toNat, BitVec.setWidth_eq]

theorem ofBytes_record (q : Queued) : SignalfdSiginfo.ofBytes e (q.record e) = q.view := by
  have hsigno : fieldAt e (q.record e) 0 4 = q.signo.toNat :=
    fieldAt_getElem e 0 rfl rfl (toNat_lt_pow _)
  have herrno : fieldAt e (q.record e) 4 4 = q.errno.toNat :=
    fieldAt_getElem e 1 rfl rfl (toNat_lt_pow _)
  have hcode : fieldAt e (q.record e) 8 4 = q.code.toNat :=
    fieldAt_getElem e 2 rfl rfl (toNat_lt_pow _)
  have hpid : fieldAt e (q.record e) 12 4 = q.pid.toNat :=
    fieldAt_getElem e 3 rfl rfl (toNat_lt_pow _)
  have huid : fieldAt e (q.record e) 16 4 = q.uid.toNat :=
    fieldAt_getElem e 4 rfl rfl (toNat_lt_pow _)
  have hint : fieldAt e (q.record e) 44 4 = q.value.toNat % 2 ^ 32 :=
    fieldAt_getElem e 11 rfl rfl (Nat.mod_lt _ (by decide))
  have hptr : fieldAt e (q.record e) 48 8 = q.value.toNat :=
    fieldAt_getElem e 12 rfl rfl (toNat_lt_pow_eight _)
  have hlow : BitVec.ofNat 32 (q.value.toNat % 2 ^ 32) = q.value.setWidth 32 := by
    apply BitVec.eq_of_toNat_eq
    simp
  simp only [SignalfdSiginfo.ofBytes, hsigno, herrno, hcode, hpid, huid, hint, hptr, hlow,
    BitVec.ofNat_toNat, BitVec.setWidth_eq, Queued.view]

theorem length_record (q : Queued) : (q.record e).length = recordSize := by
  have hsize : size q.fields = recordSize := by
    simp only [size, Queued.fields, List.map_cons, List.map_nil, List.sum_cons, List.sum_nil]
    rfl
  rw [Queued.record, length_image, hsize]

theorem isRecord_record (q : Queued) : (recordFraming e).IsRecord (q.record e) := by
  rw [Framing.IsRecord, length_record]
  exact if_pos (length_record e q).ge

theorem length_records (out : List Queued) :
    (out.flatMap (Queued.record e)).length = out.length * recordSize := by
  induction out with
  | nil => exact (Nat.zero_mul _).symm
  | cons q out ih =>
    rw [List.flatMap_cons, List.length_append, length_record, ih, List.length_cons,
      Nat.succ_mul, Nat.add_comm]

def ofNumber (t : BitVec 32) (qs : List Queued) : List Queued := qs.filter (·.signo == t)

theorem ofNumber_append (t : BitVec 32) (l l' : List Queued) :
    ofNumber t (l ++ l') = ofNumber t l ++ ofNumber t l' :=
  List.filter_append ..

theorem mem_mine {favours : List Queued → BitVec 32} {mask : Sigset} {pending : List Queued}
    {x : Queued}
    (h : ((pending.filter (inMask mask)).find? (·.signo == favours pending)).or
      (pending.filter (inMask mask)).head? = some x) : x ∈ pending.filter (inMask mask) := by
  rcases Option.or_eq_some_iff.mp h with hfavoured | ⟨-, hhead⟩
  · exact List.mem_of_find?_eq_some hfavoured
  · exact List.mem_of_head? hhead

theorem nextSignal_some {favours : List Queued → BitVec 32} {mask : Sigset}
    {pending rest : List Queued} {q : Queued}
    (h : nextSignal favours mask pending = some (q, rest)) :
    inMask mask q = true ∧ ∃ before after, pending = before ++ q :: after ∧
      rest = before ++ after ∧ ∀ x ∈ before, x.signo ≠ q.signo := by
  unfold nextSignal at h
  dsimp only at h
  split at h
  · cases h
  · rename_i x hx
    split at h
    · cases h
    · rename_i hfind
      obtain ⟨hq, before, after, hsplit, hbefore⟩ := List.find?_eq_some_iff_append.mp hfind
      cases h
      have hsame : q.signo = x.signo := by simpa using hq
      have hothers : ∀ y ∈ before, ¬ (y.signo == x.signo) = true := by
        intro y hy
        simpa using hbefore y hy
      refine ⟨?_, before, after, hsplit, ?_, ?_⟩
      · rw [inMask, hsame]
        exact (List.mem_filter.mp (mem_mine hx)).2
      · rw [hsplit, List.eraseP_append_right _ hothers, List.eraseP_cons, hq, cond_true]
      · intro y hy
        rw [hsame]
        simpa using hothers y hy

theorem nextSignal_none {favours : List Queued → BitVec 32} {mask : Sigset}
    {pending : List Queued} (h : nextSignal favours mask pending = none) :
    pending.filter (inMask mask) = [] := by
  unfold nextSignal at h
  dsimp only at h
  split at h
  · rename_i hnone
    exact List.head?_eq_none_iff.mp (Option.or_eq_none_iff.mp hnone).2
  · rename_i x hx
    have hmine := (List.mem_filter.mp (mem_mine hx)).1
    split at h
    · rename_i hfind
      exact absurd (beq_self_eq_true _) (List.find?_eq_none.mp hfind x hmine)
    · cases h

theorem ofNumber_nextSignal {favours : List Queued → BitVec 32} {mask : Sigset}
    {pending rest : List Queued} {q : Queued}
    (h : nextSignal favours mask pending = some (q, rest)) (t : BitVec 32) :
    ofNumber t pending = ofNumber t [q] ++ ofNumber t rest := by
  obtain ⟨-, before, after, rfl, rfl, hbefore⟩ := nextSignal_some h
  rw [← List.singleton_append, ofNumber_append, ofNumber_append, ofNumber_append]
  -- what is taken stands in front of its number; of another number it is nothing
  by_cases hq : q.signo = t
  · have hnone : ofNumber t before = [] := by
      apply List.filter_eq_nil_iff.mpr
      intro x hx
      simpa [hq] using hbefore x hx
    rw [hnone, List.nil_append, List.nil_append]
  · have hnone : ofNumber t [q] = [] := by simp [ofNumber, hq]
    rw [hnone, List.nil_append, List.nil_append]

theorem filter_nextSignal {favours : List Queued → BitVec 32} {mask : Sigset}
    {pending rest : List Queued} {q : Queued}
    (h : nextSignal favours mask pending = some (q, rest)) :
    (pending.filter (inMask mask)).length = (rest.filter (inMask mask)).length + 1 := by
  obtain ⟨hq, before, after, rfl, rfl, -⟩ := nextSignal_some h
  rw [List.filter_append, List.filter_cons_of_pos hq, List.filter_append, List.length_append,
    List.length_cons, List.length_append, Nat.add_assoc]

theorem takeSignals_split (favours : List Queued → BitVec 32) (mask : Sigset) (n : ℕ)
    (pending : List Queued) (t : BitVec 32) :
    ofNumber t pending = ofNumber t (takeSignals favours mask n pending).1 ++
      ofNumber t (takeSignals favours mask n pending).2 := by
  induction n generalizing pending with
  | zero => rfl
  | succ n ih =>
    rw [takeSignals]
    cases hnext : nextSignal favours mask pending with
    | none => rfl
    | some r =>
      obtain ⟨q, rest⟩ := r
      calc ofNumber t pending = ofNumber t [q] ++ ofNumber t rest := ofNumber_nextSignal hnext t
        _ = ofNumber t [q] ++ (ofNumber t (takeSignals favours mask n rest).1 ++
              ofNumber t (takeSignals favours mask n rest).2) := by rw [← ih rest]
        _ = ofNumber t ([q] ++ (takeSignals favours mask n rest).1) ++
              ofNumber t (takeSignals favours mask n rest).2 := by
          rw [ofNumber_append t [q], List.append_assoc]

theorem takeSignals_length (favours : List Queued → BitVec 32) (mask : Sigset) (n : ℕ)
    (pending : List Queued) :
    (takeSignals favours mask n pending).1.length =
      min n (pending.filter (inMask mask)).length := by
  induction n generalizing pending with
  | zero => exact (Nat.zero_min _).symm
  | succ n ih =>
    rw [takeSignals]
    cases hnext : nextSignal favours mask pending with
    | none => rw [nextSignal_none hnext]; rfl
    | some r =>
      obtain ⟨q, rest⟩ := r
      rw [filter_nextSignal hnext, Nat.add_min_add_right, ← ih rest]
      rfl

theorem takeSignals_mask (favours : List Queued → BitVec 32) (mask : Sigset) (n : ℕ)
    (pending : List Queued) :
    ∀ q ∈ (takeSignals favours mask n pending).1, inMask mask q = true := by
  induction n generalizing pending with
  | zero =>
    intro q hq
    cases hq
  | succ n ih =>
    intro q hq
    rw [takeSignals] at hq
    cases hnext : nextSignal favours mask pending with
    | none =>
      rw [hnext] at hq
      cases hq
    | some r =>
      obtain ⟨x, rest⟩ := r
      rw [hnext] at hq
      rcases List.mem_cons.mp hq with rfl | hlater
      · exact (nextSignal_some hnext).1
      · exact ih rest q hlater

theorem takeSignals_all (favours : List Queued → BitVec 32) (mask : Sigset) {n : ℕ}
    {pending : List Queued} (h : (pending.filter (inMask mask)).length ≤ n) :
    (takeSignals favours mask n pending).2.filter (inMask mask) = [] := by
  induction n generalizing pending with
  | zero => exact List.length_eq_zero_iff.mp (Nat.le_zero.mp h)
  | succ n ih =>
    rw [takeSignals]
    cases hnext : nextSignal favours mask pending with
    | none => exact nextSignal_none hnext
    | some r =>
      obtain ⟨q, rest⟩ := r
      have hfewer := filter_nextSignal hnext
      exact ih (by omega)

theorem prefix_takeSignals (favours : List Queued → BitVec 32) (mask : Sigset) (n : ℕ)
    (pending : List Queued) (t : BitVec 32) :
    ofNumber t (takeSignals favours mask n pending).1 <+:
      ofNumber t (pending.filter (inMask mask)) := by
  have hwaiting : ofNumber t (pending.filter (inMask mask)) =
      (ofNumber t pending).filter (inMask mask) := by
    rw [ofNumber, ofNumber, List.filter_filter, List.filter_filter]
    exact List.filter_congr fun q _ => Bool.and_comm _ _
  have hmine : (ofNumber t (takeSignals favours mask n pending).1).filter (inMask mask) =
      ofNumber t (takeSignals favours mask n pending).1 := by
    apply List.filter_eq_self.mpr
    intro q hq
    exact takeSignals_mask favours mask n pending q (List.mem_filter.mp hq).1
  rw [hwaiting, takeSignals_split favours mask n pending t, List.filter_append, hmine]
  exact List.prefix_append _ _

theorem drain_records (out : List Queued) :
    (drain (recordFraming e).next ((out.flatMap (Queued.record e)).length + 1)
      (out.flatMap (Queued.record e)) : Outcome Errno (List SignalfdSiginfo)) =
        .ok (out.map Queued.view) := by
  rw [Framing.drain_encoded (isRecord_record e) out (Nat.lt_succ_self _)]
  exact congrArg Outcome.ok (List.map_congr_left fun q _ => ofBytes_record e q)

theorem readSignals_cases (favours : List Queued → BitVec 32) (mask : Sigset)
    (pending : List Queued) (buf : Slice) :
    let run := readSignals e favours mask pending buf
    let taken := takeSignals favours mask (buf.len / recordSize) pending
    (buf.len < recordSize ∧ run = (.err .EINVAL, pending)) ∨
    (recordSize ≤ buf.len ∧ pending.filter (inMask mask) = [] ∧ run = (.err .EAGAIN, pending)) ∨
    (recordSize ≤ buf.len ∧ pending.filter (inMask mask) ≠ [] ∧
      run = (.ok (taken.1.map Queued.view), taken.2)) := by
  intro run taken
  by_cases hsize : buf.len < recordSize
  · refine Or.inl ⟨hsize, ?_⟩
    simp only [run, readSignals, sysReadSignalfd]
    rw [if_pos (Nat.div_eq_of_lt hsize), fromRet_raw]
    rfl
  have hle := Nat.not_lt.mp hsize
  have hpos : 0 < buf.len / recordSize := Nat.div_pos hle (by decide)
  have hlength : taken.1.length = min (buf.len / recordSize) (pending.filter (inMask mask)).length :=
    takeSignals_length favours mask _ pending
  right
  by_cases hnone : pending.filter (inMask mask) = []
  · have hempty : taken.1 = [] := by
      rw [hnone, List.length_nil, Nat.min_zero] at hlength
      exact List.length_eq_zero_iff.mp hlength
    refine Or.inl ⟨hle, hnone, ?_⟩
    simp only [run, readSignals, sysReadSignalfd]
    rw [if_neg hpos.ne', if_pos (List.isEmpty_iff.mpr hempty), fromRet_raw]
    rfl
  · have htaken : taken.1 ≠ [] := by
      have := List.length_pos_iff.mpr hnone
      exact List.ne_nil_of_length_pos (by omega)
    have hroom : (taken.1.flatMap (Queued.record e)).length ≤ buf.len := by
      rw [length_records, hlength]
      exact (Nat.mul_le_mul_right _ (Nat.min_le_left _ _)).trans (Nat.div_mul_le_self _ _)
    have hsmall := hroom.trans_lt buf.len_lt
    refine Or.inr ⟨hle, hnone, ?_⟩
    simp only [run, readSignals, sysReadSignalfd]
    rw [if_neg hpos.ne', if_neg (by simpa using htaken), fromRet_countRet hsmall]
    dsimp only
    rw [toNat_countRet hsmall, Slice.len_patch, if_pos hroom, Slice.bytes_upTo_patch hroom,
      drain_records]

theorem sigqueue_cases (v : Verdict) (pending : List Queued) (self : Sender)
    (pid sig : BitVec 32) (value : BitVec 64) :
    let run := sigqueue e v pending self pid sig value
    (∃ code, run = (.error code, pending)) ∨
    (isRealTime sig = false ∧ (sig = 0 ∨ ofNumber sig pending ≠ []) ∧ run = (.ok (), pending)) ∨
    (isRealTime sig = false ∧ ofNumber sig pending = [] ∧
      run = (.ok (), pending ++ [⟨sig, 0, 0, 0, 0, 0⟩])) ∨
    ((isRealTime sig = true ∨ ofNumber sig pending = []) ∧
      run = (.ok (), pending ++ [⟨sig, 0, siQueue, self.pid, self.uid, value⟩])) := by
  intro run
  have hmay : ¬ ((0 ≤ siQueue.toInt ∨ siQueue = siTkill) ∧ self.pid ≠ pid) := by
    rintro ⟨hcode, -⟩
    exact absurd hcode (by decide)
  simp only [run, sigqueue, sysRtSigqueueinfo, readInfo_bytes]
  rw [if_neg hmay]
  cases hrefuse : v.refuse with
  | some reason =>
    refine Or.inl ⟨SysErr.errno reason, ?_⟩
    dsimp only
    rw [unitRet_raw]
  | none =>
    dsimp only
    by_cases hrange : 64 < sig.toNat
    · rw [if_pos hrange]
      exact Or.inl ⟨SysErr.errno .EINVAL, by rw [unitRet_raw]⟩
    rw [if_neg hrange]
    by_cases hprobe : sig = 0
    · rw [if_pos hprobe]
      refine Or.inr (Or.inl ⟨?_, Or.inl hprobe, rfl⟩)
      rw [hprobe]
      rfl
    rw [if_neg hprobe]
    cases hrt : isRealTime sig with
    | true =>
      rw [if_neg (by simp)]
      by_cases hfull : v.full = true
      · rw [if_pos hfull, if_pos rfl]
        exact Or.inl ⟨SysErr.errno .EAGAIN, by rw [unitRet_raw]⟩
      · rw [if_neg hfull]
        exact Or.inr (Or.inr (Or.inr ⟨Or.inl rfl, rfl⟩))
    | false =>
      by_cases hany : pending.any (·.signo == sig) = true
      · rw [if_pos (by simp only [Bool.not_false, Bool.true_and, hany])]
        obtain ⟨x, hx, hsame⟩ := List.any_eq_true.mp hany
        have hthere : ofNumber sig pending ≠ [] :=
          List.ne_nil_of_mem (List.mem_filter.mpr ⟨hx, hsame⟩)
        exact Or.inr (Or.inl ⟨rfl, Or.inr hthere, rfl⟩)
      rw [if_neg (by simpa using hany)]
      have hfirst : ofNumber sig pending = [] := by
        apply List.filter_eq_nil_iff.mpr
        intro x hx hsame
        exact hany (List.any_eq_true.mpr ⟨x, hx, hsame⟩)
      by_cases hfull : v.full = true
      · rw [if_pos hfull, if_neg Bool.false_ne_true]
        exact Or.inr (Or.inr (Or.inl ⟨rfl, hfirst, rfl⟩))
      · rw [if_neg hfull]
        exact Or.inr (Or.inr (Or.inr ⟨Or.inr hfirst, rfl⟩))

inductive Delivery where
  | send (v : Verdict) (self : Sender) (sig : BitVec 32) (value : BitVec 64)
  | read (favours : List Queued → BitVec 32) (buf : Slice)

/-- A read of the signalfd: its buffer, the signals of the mask that were pending,
and the answer. -/
structure Reading where
  buf : Slice
  waiting : List SignalfdSiginfo
  answer : Outcome Errno (List SignalfdSiginfo)

inductive Traffic where
  | sent (message : SignalfdSiginfo)
  | read (r : Reading)

structure Channel where
  pending : List Queued
  log : List Traffic

def Channel.empty : Channel := ⟨[], []⟩

def message (self : Sender) (sig : BitVec 32) (value : BitVec 64) : SignalfdSiginfo :=
  ⟨sig, 0, siQueue, self.pid, self.uid, value.setWidth 32, value⟩

def step (mask : Sigset) (pid : BitVec 32) (c : Channel) : Delivery → Channel
  | .send v self sig value =>
    match sigqueue e v c.pending self pid sig value with
    | (.error _, pending) => ⟨pending, c.log⟩
    | (.ok _, pending) => ⟨pending, c.log ++ [.sent (message self sig value)]⟩
  | .read favours buf =>
    let (answer, pending) := readSignals e favours mask c.pending buf
    ⟨pending, c.log ++ [.read ⟨buf, (c.pending.filter (inMask mask)).map Queued.view, answer⟩]⟩

def deliver (mask : Sigset) (pid : BitVec 32) (c : Channel) (ds : List Delivery) : Channel :=
  ds.foldl (step e mask pid) c

def Traffic.sends : Traffic → List SignalfdSiginfo
  | .sent message => [message]
  | .read _ => []

def Traffic.brings : Traffic → List SignalfdSiginfo
  | .read ⟨_, _, .ok got⟩ => got
  | _ => []

def Channel.sent (c : Channel) : List SignalfdSiginfo := c.log.flatMap Traffic.sends

def Channel.received (c : Channel) : List SignalfdSiginfo := c.log.flatMap Traffic.brings

def numbered (t : BitVec 32) (infos : List SignalfdSiginfo) : List SignalfdSiginfo :=
  infos.filter (·.ssiSigno == t)

def payloads (infos : List SignalfdSiginfo) : List SignalfdSiginfo :=
  infos.filter (·.ssiCode == siQueue)

def Channel.accounted (c : Channel) (t : BitVec 32) : List SignalfdSiginfo :=
  numbered t (c.received ++ c.pending.map Queued.view)

/-- A signal of number `t` has been sent since one was last received. -/
def Unread (t : BitVec 32) (log : List Traffic) : Prop :=
  ∃ before m after, log = before ++ .sent m :: after ∧ m.ssiSigno = t ∧
    ∀ x ∈ after, numbered t x.brings = []

/-- A read brings as many of the signals that waited as its buffer has room for,
those of one number from the front; it fails with `EINVAL` if there is no room for
one and with `EAGAIN` if none waited. -/
def Reading.Answered (r : Reading) : Prop :=
  match r.answer with
  | .ok got => recordSize ≤ r.buf.len ∧ r.waiting ≠ [] ∧
      got.length = min (r.buf.len / recordSize) r.waiting.length ∧
      ∀ t, numbered t got <+: numbered t r.waiting
  | .err code => (r.buf.len < recordSize ∧ code = .EINVAL) ∨
      (recordSize ≤ r.buf.len ∧ r.waiting = [] ∧ code = .EAGAIN)
  | .panic => False
  | .diverge => False

/-- Of each real-time signal everything is accounted for, and of another signal one
is pending exactly if one is unread, never more, and the payloads accounted for are
some of those sent. -/
structure Delivered (c : Channel) : Prop where
  all : ∀ t, isRealTime t = true → c.accounted t = numbered t c.sent
  some : ∀ t, (payloads (c.accounted t)).Sublist (numbered t c.sent)
  once : ∀ t, isRealTime t = false → (ofNumber t c.pending).length ≤ 1
  unread : ∀ t, isRealTime t = false → t ≠ 0 → (Unread t c.log ↔ ofNumber t c.pending ≠ [])
  answered : ∀ r, .read r ∈ c.log → r.Answered

theorem numbered_append (t : BitVec 32) (l l' : List SignalfdSiginfo) :
    numbered t (l ++ l') = numbered t l ++ numbered t l' :=
  List.filter_append ..

theorem payloads_append (l l' : List SignalfdSiginfo) :
    payloads (l ++ l') = payloads l ++ payloads l' :=
  List.filter_append ..

theorem numbered_view (t : BitVec 32) (qs : List Queued) :
    numbered t (qs.map Queued.view) = (ofNumber t qs).map Queued.view :=
  List.filter_map ..

theorem numbered_of_ne {t : BitVec 32} {i : SignalfdSiginfo} (h : i.ssiSigno ≠ t) :
    numbered t [i] = [] := by
  simp [numbered, h]

theorem ofNumber_of_ne {t : BitVec 32} {q : Queued} (h : q.signo ≠ t) : ofNumber t [q] = [] := by
  simp [ofNumber, h]

theorem sent_send (pending : List Queued) (log : List Traffic) (m : SignalfdSiginfo) :
    Channel.sent ⟨pending, log ++ [.sent m]⟩ = Channel.sent ⟨pending, log⟩ ++ [m] := by
  simp [Channel.sent, Traffic.sends]

theorem received_send (pending : List Queued) (log : List Traffic) (m : SignalfdSiginfo) :
    Channel.received ⟨pending, log ++ [.sent m]⟩ = Channel.received ⟨pending, log⟩ := by
  simp [Channel.received, Traffic.brings]

theorem sent_read (pending : List Queued) (log : List Traffic) (r : Reading) :
    Channel.sent ⟨pending, log ++ [.read r]⟩ = Channel.sent ⟨pending, log⟩ := by
  simp [Channel.sent, Traffic.sends]

theorem accounted_quiet (c : Channel) (t : BitVec 32) {x : Traffic} (hx : x.brings = []) :
    Channel.accounted ⟨c.pending, c.log ++ [x]⟩ t = c.accounted t := by
  simp [Channel.accounted, Channel.received, hx]

theorem accounted_take (c : Channel) (t : BitVec 32) {out rest : List Queued} {x : Traffic}
    (hx : x.brings = out.map Queued.view)
    (h : ofNumber t c.pending = ofNumber t out ++ ofNumber t rest) :
    Channel.accounted ⟨rest, c.log ++ [x]⟩ t = c.accounted t := by
  have hreceived : Channel.received ⟨rest, c.log ++ [x]⟩ = c.received ++ out.map Queued.view := by
    simp [Channel.received, hx]
  rw [Channel.accounted, Channel.accounted, hreceived, numbered_append, numbered_append,
    numbered_append, numbered_view, numbered_view, numbered_view, h, List.map_append,
    List.append_assoc]

theorem accounted_add (c : Channel) (t : BitVec 32) (q : Queued) (m : SignalfdSiginfo) :
    Channel.accounted ⟨c.pending ++ [q], c.log ++ [.sent m]⟩ t =
      c.accounted t ++ numbered t [q.view] := by
  rw [Channel.accounted, received_send, List.map_append, ← List.append_assoc,
    numbered_append t (_ ++ _)]
  rfl

theorem unread_sent {t : BitVec 32} {log : List Traffic} {m : SignalfdSiginfo} :
    Unread t (log ++ [.sent m]) ↔ Unread t log ∨ m.ssiSigno = t := by
  constructor
  · rintro ⟨before, m', after, hlog, hm', hafter⟩
    rcases List.eq_nil_or_concat after with rfl | ⟨front, x, rfl⟩
    · obtain ⟨-, hlast⟩ := List.append_inj' hlog rfl
      obtain rfl : m = m' := by simpa using hlast
      exact Or.inr hm'
    · rw [List.concat_eq_append] at hlog hafter
      have hsplit : log ++ [.sent m] = (before ++ .sent m' :: front) ++ [x] := by
        rw [hlog]
        simp
      obtain ⟨hfront, -⟩ := List.append_inj' hsplit rfl
      exact Or.inl ⟨before, m', front, hfront, hm',
        fun y hy => hafter y (List.mem_append_left _ hy)⟩
  · rintro (⟨before, m', after, rfl, hm', hafter⟩ | hm)
    · refine ⟨before, m', after ++ [.sent m], by simp, hm', fun y hy => ?_⟩
      rcases List.mem_append.mp hy with hold | hnew
      · exact hafter y hold
      · rw [List.mem_singleton.mp hnew]
        rfl
    · exact ⟨log, m, [], rfl, hm, by simp⟩

theorem unread_read {t : BitVec 32} {log : List Traffic} {r : Reading} :
    Unread t (log ++ [.read r]) ↔ Unread t log ∧ numbered t (Traffic.read r).brings = [] := by
  constructor
  · rintro ⟨before, m', after, hlog, hm', hafter⟩
    rcases List.eq_nil_or_concat after with rfl | ⟨front, x, rfl⟩
    · obtain ⟨-, hlast⟩ := List.append_inj' hlog rfl
      simp at hlast
    · rw [List.concat_eq_append] at hlog hafter
      have hsplit : log ++ [.read r] = (before ++ .sent m' :: front) ++ [x] := by
        rw [hlog]
        simp
      obtain ⟨hfront, hlast⟩ := List.append_inj' hsplit rfl
      obtain rfl : .read r = x := by simpa using hlast
      exact ⟨⟨before, m', front, hfront, hm', fun y hy => hafter y (List.mem_append_left _ hy)⟩,
        hafter _ (List.mem_append_right _ (List.mem_singleton_self _))⟩
  · rintro ⟨⟨before, m', after, rfl, hm', hafter⟩, hnone⟩
    refine ⟨before, m', after ++ [.read r], by simp, hm', fun y hy => ?_⟩
    rcases List.mem_append.mp hy with hold | hnew
    · exact hafter y hold
    · rw [List.mem_singleton.mp hnew]
      exact hnone

theorem isRealTime_ne {t sig : BitVec 32} (ht : isRealTime t = true)
    (hsig : isRealTime sig = false) : sig ≠ t := by
  rintro rfl
  exact Bool.false_ne_true (hsig.symm.trans ht)

theorem Delivered.merged {c : Channel} (h : Delivered c) {m : SignalfdSiginfo}
    (hm : isRealTime m.ssiSigno = false)
    (hthere : m.ssiSigno = 0 ∨ ofNumber m.ssiSigno c.pending ≠ []) :
    Delivered ⟨c.pending, c.log ++ [.sent m]⟩ where
  all t ht := by
    rw [accounted_quiet c t rfl, sent_send, numbered_append,
      numbered_of_ne (isRealTime_ne ht hm), List.append_nil]
    exact h.all t ht
  some t := by
    rw [accounted_quiet c t rfl, sent_send, numbered_append]
    exact (h.some t).trans (List.sublist_append_left _ _)
  once := h.once
  unread t ht hzero := by
    rw [unread_sent, h.unread t ht hzero]
    constructor
    · rintro (hold | rfl)
      · exact hold
      · exact hthere.resolve_left hzero
    · exact Or.inl
  answered r hr := by
    refine h.answered r ?_
    simpa using hr

theorem Delivered.queued {c : Channel} (h : Delivered c) {m : SignalfdSiginfo} {q : Queued}
    (hq : q.signo = m.ssiSigno)
    (hroom : isRealTime m.ssiSigno = true ∨ ofNumber m.ssiSigno c.pending = [])
    (hview : q.view = m ∨ isRealTime m.ssiSigno = false ∧ q.code ≠ siQueue) :
    Delivered ⟨c.pending ++ [q], c.log ++ [.sent m]⟩ where
  all t ht := by
    rw [accounted_add, sent_send, numbered_append, h.all t ht]
    rcases hview with rfl | ⟨hother, -⟩
    · rfl
    · have hsame : q.view.ssiSigno = m.ssiSigno := hq
      have hne : m.ssiSigno ≠ t := isRealTime_ne ht hother
      rw [numbered_of_ne hne, numbered_of_ne (hsame ▸ hne)]
      rfl
  some t := by
    rw [accounted_add, sent_send, payloads_append, numbered_append]
    rcases hview with rfl | ⟨-, hbare⟩
    · exact (h.some t).append List.filter_sublist
    · have hnone : payloads (numbered t [q.view]) = [] := by
        apply List.filter_eq_nil_iff.mpr
        intro i hi
        rw [List.mem_singleton.mp (List.mem_filter.mp hi).1]
        simpa [Queued.view] using hbare
      rw [hnone, List.append_nil]
      exact (h.some t).trans (List.sublist_append_left _ _)
  once t ht := by
    rw [ofNumber_append, List.length_append]
    by_cases hsame : q.signo = t
    · have hfirst : ofNumber t c.pending = [] := by
        rw [← hsame, hq]
        refine hroom.resolve_left fun hrt => ?_
        rw [← hq, hsame, ht] at hrt
        exact Bool.false_ne_true hrt
      rw [hfirst, List.length_nil, Nat.zero_add]
      exact List.length_filter_le ..
    · rw [ofNumber_of_ne hsame]
      exact h.once t ht
  unread t ht hzero := by
    rw [unread_sent, h.unread t ht hzero, ofNumber_append, ne_eq, ne_eq, List.append_eq_nil_iff,
      not_and_or]
    refine or_congr Iff.rfl ?_
    rw [← hq]
    by_cases hsame : q.signo = t
    · simp [ofNumber, hsame]
    · simp [ofNumber, hsame]
  answered r hr := by
    refine h.answered r ?_
    simpa using hr

theorem delivered_send {mask : Sigset} {pid : BitVec 32} {c : Channel} (h : Delivered c)
    (v : Verdict) (self : Sender) (sig : BitVec 32) (value : BitVec 64) :
    Delivered (step e mask pid c (.send v self sig value)) := by
  rw [step]
  rcases sigqueue_cases e v c.pending self pid sig value with
    ⟨code, hrun⟩ | ⟨hsig, hthere, hrun⟩ | ⟨hsig, hfirst, hrun⟩ | ⟨hroom, hrun⟩
  · rw [hrun]
    exact h
  · rw [hrun]
    exact h.merged hsig hthere
  · rw [hrun]
    have hbare : (0 : BitVec 32) ≠ siQueue := by decide
    exact h.queued rfl (Or.inr hfirst) (Or.inr ⟨hsig, hbare⟩)
  · rw [hrun]
    exact h.queued rfl hroom (Or.inl rfl)

theorem Delivered.failed {c : Channel} (h : Delivered c) {r : Reading} (hr : r.Answered)
    (hnone : (Traffic.read r).brings = []) : Delivered ⟨c.pending, c.log ++ [.read r]⟩ where
  all t ht := by
    rw [accounted_quiet c t hnone, sent_read]
    exact h.all t ht
  some t := by
    rw [accounted_quiet c t hnone, sent_read]
    exact h.some t
  once := h.once
  unread t ht hzero := by
    rw [unread_read, hnone]
    exact (and_iff_left rfl).trans (h.unread t ht hzero)
  answered r' hr' := by
    rcases List.mem_append.mp hr' with hold | hnew
    · exact h.answered r' hold
    · obtain rfl : r' = r := by simpa using hnew
      exact hr

theorem Delivered.took {c : Channel} (h : Delivered c) {r : Reading} (hr : r.Answered)
    {out rest : List Queued} (hbrings : (Traffic.read r).brings = out.map Queued.view)
    (hsplit : ∀ t, ofNumber t c.pending = ofNumber t out ++ ofNumber t rest) :
    Delivered ⟨rest, c.log ++ [.read r]⟩ where
  all t ht := by
    rw [accounted_take c t hbrings (hsplit t), sent_read]
    exact h.all t ht
  some t := by
    rw [accounted_take c t hbrings (hsplit t), sent_read]
    exact h.some t
  once t ht := by
    have hold := h.once t ht
    rw [hsplit t, List.length_append] at hold
    exact le_of_add_le_right hold
  unread t ht hzero := by
    have hold := h.once t ht
    rw [unread_read, h.unread t ht hzero, hbrings, numbered_view, List.map_eq_nil_iff]
    rw [hsplit t, List.length_append] at hold
    rw [hsplit t, ne_eq, ne_eq, List.append_eq_nil_iff]
    -- one at most was pending, so it was taken or it is still there
    by_cases hout : ofNumber t out = []
    · simp [hout]
    · have hpos := List.length_pos_iff.mpr hout
      have hgone : ofNumber t rest = [] := List.length_eq_zero_iff.mp (by omega)
      simp [hout, hgone]
  answered r' hr' := by
    rcases List.mem_append.mp hr' with hold | hnew
    · exact h.answered r' hold
    · obtain rfl : r' = r := by simpa using hnew
      exact hr

theorem delivered_read {mask : Sigset} {pid : BitVec 32} {c : Channel} (h : Delivered c)
    (favours : List Queued → BitVec 32) (buf : Slice) :
    Delivered (step e mask pid c (.read favours buf)) := by
  rw [step]
  rcases readSignals_cases e favours mask c.pending buf with
    ⟨hsmall, hrun⟩ | ⟨hlen, hnone, hrun⟩ | ⟨hlen, hsome, hrun⟩
  · rw [hrun]
    exact h.failed (Or.inl ⟨hsmall, rfl⟩) rfl
  · rw [hrun]
    exact h.failed (Or.inr ⟨hlen, by rw [hnone]; rfl, rfl⟩) rfl
  · rw [hrun]
    set taken := takeSignals favours mask (buf.len / recordSize) c.pending with htaken
    have hanswered : Reading.Answered ⟨buf, (c.pending.filter (inMask mask)).map Queued.view,
        .ok (taken.1.map Queued.view)⟩ := by
      refine ⟨hlen, by simpa using hsome, ?_, fun t => ?_⟩
      · rw [List.length_map, List.length_map]
        exact takeSignals_length favours mask _ c.pending
      · rw [numbered_view, numbered_view]
        exact (prefix_takeSignals favours mask _ c.pending t).map Queued.view
    exact h.took hanswered rfl (takeSignals_split favours mask (buf.len / recordSize) c.pending)

theorem delivered_deliver {mask : Sigset} {pid : BitVec 32} {c : Channel} (h : Delivered c)
    (ds : List Delivery) : Delivered (deliver e mask pid c ds) := by
  induction ds generalizing c with
  | nil => exact h
  | cons d ds ih =>
    cases d with
    | send v self sig value => exact ih (delivered_send e h v self sig value)
    | read favours buf => exact ih (delivered_read e h favours buf)

theorem delivered_empty : Delivered .empty where
  all t _ := rfl
  some t := .refl []
  once t _ := Nat.zero_le 1
  unread t _ _ := by
    refine iff_of_false ?_ (fun h => h rfl)
    rintro ⟨before, m, after, hlog, -⟩
    simp [Channel.empty] at hlog
  answered r hr := by cases hr

theorem pending_read_all {mask : Sigset} {pid : BitVec 32} {c : Channel}
    (favours : List Queued → BitVec 32) {buf : Slice} (hbuf : recordSize ≤ buf.len)
    (hroom : (c.pending.filter (inMask mask)).length * recordSize ≤ buf.len) :
    (step e mask pid c (.read favours buf)).pending.filter (inMask mask) = [] := by
  rw [step]
  rcases readSignals_cases e favours mask c.pending buf with
    ⟨hsmall, -⟩ | ⟨-, hnone, hrun⟩ | ⟨-, -, hrun⟩
  · exact absurd hbuf (Nat.not_le.mpr hsmall)
  · rw [hrun]
    exact hnone
  · rw [hrun]
    exact takeSignals_all favours mask ((Nat.le_div_iff_mul_le (by decide)).mpr hroom)

theorem accounted_of_none {c : Channel} {t : BitVec 32} (h : ofNumber t c.pending = []) :
    c.accounted t = numbered t c.received := by
  rw [Channel.accounted, numbered_append, numbered_view, h]
  exact List.append_nil _

end RustyLibc.Signal
