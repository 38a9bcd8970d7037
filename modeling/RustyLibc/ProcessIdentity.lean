import RustyLibc.Outcome
import RustyLibc.SyscallReturn

/-!
# Groups and user ids of a process (`process.rs`)

`ngroups` and `getgroups` share one system call whose meaning changes at size
zero, and `seteuid` and `setegid` are `setresuid` and `setresgid` with two
arguments that mean "leave unchanged". The wrappers are written as the source
has them; the kernel side follows getgroups(2) and setresuid(2). Which ids a
process may take is left to the kernel: `refuse` gives its reason not to.
-/

namespace RustyLibc.Process
open Outcome Linux

/-- The supplementary groups of a process. getgroups(2) returns their number as
an `int`. -/
structure Groups where
  gids : List UInt32
  count_lt : gids.length < 2 ^ 31

/-- getgroups(2): the result register, and what the caller finds in its array. Linux
reads the size as an `int`; here it is the length that was passed. -/
def sysGetgroups (g : Groups) (size : ℕ) (list : List UInt32) : BitVec 64 × List UInt32 :=
  if size = 0 then (countRet g.gids.length, list)
  else if size < g.gids.length then (SysErr.EINVAL.raw, list)
  else (countRet g.gids.length, g.gids ++ list.drop g.gids.length)

def ngroups (g : Groups) : Except Errno ℕ := (fromRet (sysGetgroups g 0 []).1).map BitVec.toNat

def firstEntries (buf : List UInt32) (n : ℕ) : Outcome Errno (List UInt32) :=
  if n ≤ buf.length then .ok (buf.take n) else .panic

def getgroups (g : Groups) (buf : List UInt32) : Outcome Errno (List UInt32) × List UInt32 :=
  let (ret, buf) := sysGetgroups g buf.length buf
  match fromRet ret with
  | .error e => (.err e, buf)
  | .ok n => (firstEntries buf n.toNat, buf)

theorem ngroups_eq (g : Groups) : ngroups g = .ok g.gids.length := by
  have hlt : g.gids.length < 2 ^ 63 := g.count_lt.trans (by decide)
  rw [ngroups, sysGetgroups, if_pos rfl, fromRet_countRet hlt]
  exact congrArg Except.ok (toNat_countRet hlt)

theorem getgroups_nil (g : Groups) : getgroups g [] = (firstEntries [] g.gids.length, []) := by
  have hlt : g.gids.length < 2 ^ 63 := g.count_lt.trans (by decide)
  rw [getgroups, sysGetgroups, List.length_nil, if_pos rfl]
  dsimp only
  rw [fromRet_countRet hlt]
  dsimp only
  rw [toNat_countRet hlt]

theorem getgroups_short {g : Groups} {buf : List UInt32} (hne : buf ≠ [])
    (h : buf.length < g.gids.length) : getgroups g buf = (.err .EINVAL, buf) := by
  have hpos : buf.length ≠ 0 := fun h0 => hne (List.length_eq_zero_iff.mp h0)
  rw [getgroups, sysGetgroups, if_neg hpos, if_pos h]
  dsimp only
  rw [fromRet_raw]
  rfl

theorem getgroups_filled {g : Groups} {buf : List UInt32} (hne : buf ≠ [])
    (h : g.gids.length ≤ buf.length) :
    getgroups g buf = (.ok g.gids, g.gids ++ buf.drop g.gids.length) := by
  have hlt : g.gids.length < 2 ^ 63 := g.count_lt.trans (by decide)
  have hpos : buf.length ≠ 0 := fun h0 => hne (List.length_eq_zero_iff.mp h0)
  rw [getgroups, sysGetgroups, if_neg hpos, if_neg (by omega)]
  dsimp only
  rw [fromRet_countRet hlt]
  dsimp only
  rw [toNat_countRet hlt, firstEntries, if_pos (by simp), List.take_left]

/-- What the documentation promises of `getgroups`: too small a buffer is
refused, any other receives the list. -/
def GetgroupsContract (g : Groups) (buf : List UInt32) : Prop :=
  (buf.length < g.gids.length → (getgroups g buf).1 = .err .EINVAL) ∧
  (g.gids.length ≤ buf.length → (getgroups g buf).1 = .ok g.gids ∧
    (getgroups g buf).2.drop g.gids.length = buf.drop g.gids.length) ∧
  (getgroups g buf).1 ≠ .panic ∧
  (ngroups g = .ok buf.length → (getgroups g buf).1 = .ok g.gids)

/-- The contract is kept except by an empty buffer when there are groups. -/
theorem getgroups_contract_iff (g : Groups) (buf : List UInt32) :
    GetgroupsContract g buf ↔ buf ≠ [] ∨ g.gids = [] := by
  by_cases hbuf : buf = []
  · subst hbuf
    have hrun := getgroups_nil g
    constructor
    · intro h
      right
      by_contra hne
      have hpos := List.length_pos_iff.mpr hne
      have hpanic : (getgroups g []).1 = .panic := by
        rw [hrun, firstEntries, if_neg (by simpa using hne)]
      exact h.2.2.1 hpanic
    · intro h
      have hnil : g.gids = [] := h.resolve_left (fun hne => hne rfl)
      have hok : getgroups g [] = (.ok g.gids, []) := by
        rw [hrun, hnil]
        rfl
      refine ⟨by simp [hnil], fun _ => ?_, by simp [hok], fun _ => by rw [hok]⟩
      rw [hok]
      exact ⟨rfl, rfl⟩
  · refine iff_of_true ?_ (Or.inl hbuf)
    rcases Nat.lt_or_ge buf.length g.gids.length with hshort | hroom
    · rw [GetgroupsContract, getgroups_short hbuf hshort, ngroups_eq]
      refine ⟨fun _ => rfl, fun h => absurd h (by omega), by simp, fun h => ?_⟩
      have hlen := Except.ok.inj h
      omega
    · rw [GetgroupsContract, getgroups_filled hbuf hroom]
      exact ⟨fun h => absurd h (by omega), fun _ => ⟨rfl, List.drop_left⟩, by simp, fun _ => rfl⟩

theorem getgroups_contract_oneGroup :
    ¬ GetgroupsContract ⟨[1000], by decide⟩ [] ∧ (getgroups ⟨[1000], by decide⟩ []).1 = .panic := by
  have hpanic : (getgroups ⟨[1000], by decide⟩ []).1 = .panic := by decide
  exact ⟨fun h => h.2.2.1 hpanic, hpanic⟩

structure Ids where
  real : UInt32
  effective : UInt32
  saved : UInt32
  deriving DecidableEq, Repr

structure Creds where
  uid : Ids
  gid : Ids
  privileged : Bool
  deriving DecidableEq, Repr

def keepId : UInt32 := 0xFFFFFFFF

/-- The kernel's rules: why a process may not take a user or group id, and
whether it is still privileged once its user ids have changed. -/
structure CredKernel where
  refuseUid : Creds → UInt32 → Option SysErr
  refuseGid : Creds → UInt32 → Option SysErr
  stillPrivileged : Creds → Bool

def taken (old new : UInt32) : UInt32 := if new = keepId then old else new

/-- setresuid(2) and setresgid(2) on one triple of ids: `u32::MAX` is not checked
and leaves its id unchanged, and one refusal undoes the whole call. -/
def sysSetres (refuse : UInt32 → Option SysErr) (ids : Ids) (r e s : UInt32) : BitVec 64 × Ids :=
  match ([r, e, s].filter (· ≠ keepId)).findSome? refuse with
  | some reason => (reason.raw, ids)
  | none => (0, ⟨taken ids.real r, taken ids.effective e, taken ids.saved s⟩)

def setresuid (k : CredKernel) (c : Creds) (ruid euid suid : UInt32) : Except Errno Unit × Creds :=
  let (ret, ids) := sysSetres (k.refuseUid c) c.uid ruid euid suid
  (unitRet ret, { c with uid := ids, privileged :=
    if ids = c.uid then c.privileged else k.stillPrivileged { c with uid := ids } })

def setresgid (k : CredKernel) (c : Creds) (rgid egid sgid : UInt32) : Except Errno Unit × Creds :=
  let (ret, ids) := sysSetres (k.refuseGid c) c.gid rgid egid sgid
  (unitRet ret, { c with gid := ids })

def seteuid (k : CredKernel) (c : Creds) (euid : UInt32) : Except Errno Unit × Creds :=
  setresuid k c keepId euid keepId

def setegid (k : CredKernel) (c : Creds) (egid : UInt32) : Except Errno Unit × Creds :=
  setresgid k c keepId egid keepId

def EffectiveChange (before after : Ids) (x : UInt32) (result : Except Errno Unit) : Prop :=
  (result = .ok () →
    after.effective = x ∧ after.real = before.real ∧ after.saved = before.saved) ∧
  ∀ e, result = .error e → after = before

theorem sysSetres_keep (refuse : UInt32 → Option SysErr) (ids : Ids) :
    sysSetres refuse ids keepId keepId keepId = (0, ids) := rfl

theorem sysSetres_effective {x : UInt32} (hx : x ≠ keepId) (refuse : UInt32 → Option SysErr)
    (ids : Ids) : sysSetres refuse ids keepId x keepId =
      match refuse x with
      | some reason => (reason.raw, ids)
      | none => (0, { ids with effective := x }) := by
  have hargs : [keepId, x, keepId].filter (· ≠ keepId) = [x] := by simp [hx]
  rw [sysSetres, hargs, List.findSome?_singleton]
  cases refuse x with
  | some reason => rfl
  | none => simp [taken, hx]

theorem effectiveChange_iff (refuse : UInt32 → Option SysErr) (ids : Ids) (x : UInt32) :
    EffectiveChange ids (sysSetres refuse ids keepId x keepId).2 x
        (unitRet (sysSetres refuse ids keepId x keepId).1) ↔
      x ≠ keepId ∨ ids.effective = keepId := by
  by_cases hx : x = keepId
  · subst hx
    rw [sysSetres_keep]
    constructor
    · intro h
      exact Or.inr (h.1 unitRet_zero).1
    · intro h
      refine ⟨fun _ => ⟨h.resolve_left (fun hne => hne rfl), rfl, rfl⟩, fun e he => ?_⟩
      cases he
  · refine iff_of_true ?_ (Or.inl hx)
    rw [sysSetres_effective hx]
    cases refuse x with
    | some reason =>
      dsimp only
      rw [unitRet_raw]
      refine ⟨fun h => ?_, fun _ _ => rfl⟩
      cases h
    | none =>
      refine ⟨fun _ => ⟨rfl, rfl, rfl⟩, fun e he => ?_⟩
      cases he

/-- A change of the effective id that is reported did happen, unless the id asked
for is `u32::MAX` and is not the effective id already. -/
theorem effective_id_changed_iff (k : CredKernel) (c : Creds) (x : UInt32) :
    (EffectiveChange c.uid (seteuid k c x).2.uid x (seteuid k c x).1 ↔
      x ≠ keepId ∨ c.uid.effective = keepId) ∧
    (EffectiveChange c.gid (setegid k c x).2.gid x (setegid k c x).1 ↔
      x ≠ keepId ∨ c.gid.effective = keepId) :=
  ⟨effectiveChange_iff (k.refuseUid c) c.uid x, effectiveChange_iff (k.refuseGid c) c.gid x⟩

def mayTake (c : Creds) (ids : Ids) (x : UInt32) : Option SysErr :=
  if c.privileged ∨ x ∈ [ids.real, ids.effective, ids.saved] then none else some .EPERM

def linuxCreds : CredKernel where
  refuseUid c x := mayTake c c.uid x
  refuseGid c x := mayTake c c.gid x
  stillPrivileged c := c.uid.effective == 0

def root : Creds := ⟨⟨0, 0, 0⟩, ⟨0, 0, 0⟩, true⟩

theorem effective_id_kept_root :
    (seteuid linuxCreds root keepId).1 = .ok () ∧ (seteuid linuxCreds root keepId).2.uid.effective = 0 ∧
      ¬ EffectiveChange root.uid (seteuid linuxCreds root keepId).2.uid keepId
        (seteuid linuxCreds root keepId).1 ∧
      ¬ EffectiveChange root.gid (setegid linuxCreds root keepId).2.gid keepId
        (setegid linuxCreds root keepId).1 := by
  refine ⟨rfl, rfl, fun h => ?_, fun h => ?_⟩
  · exact absurd (h.1 rfl).1 (by decide)
  · exact absurd (h.1 rfl).1 (by decide)

end RustyLibc.Process
