import Mathlib.Data.List.Sort
import RustyLibc.ProcessIdentity

/-!
# Dropping privilege, for good and for a while (`process.rs`)

The `setuid` family as one machine: the ids of a process, whether it holds the
capabilities that changing them takes, and its supplementary groups. The kernel
follows setuid(2), setresuid(2), setgroups(2) and the section of capabilities(7)
on changes of user id. `CAP_SETUID` and `CAP_SETGID` are held together, and
securebits and user namespaces are left aside.

`creds.privileged` says that the capabilities are effective, `permitted` that
they can become so again.
-/

namespace RustyLibc.Process
open Linux

def Ids.all (x : UInt32) : Ids := ⟨x, x, x⟩

def Ids.HasRoot (ids : Ids) : Prop := ids.real = 0 ∨ ids.effective = 0 ∨ ids.saved = 0

instance (ids : Ids) : Decidable ids.HasRoot := inferInstanceAs (Decidable (_ ∨ _ ∨ _))

/-- A process as far as the `setuid` family can see it. The capabilities are
effective only while they are permitted, and permitted without being effective
only behind a user id 0 to come back to. -/
structure Subject where
  creds : Creds
  permitted : Bool
  groups : Groups
  held : creds.privileged → permitted
  armed : permitted → creds.privileged ∨
    creds.uid.effective ≠ 0 ∧ (creds.uid.real = 0 ∨ creds.uid.saved = 0)

def LeavesRoot (old new : Ids) : Prop := old.HasRoot ∧ ¬ new.HasRoot

instance (old new : Ids) : Decidable (LeavesRoot old new) := inferInstanceAs (Decidable (_ ∧ _))

def permittedAfter (s : Subject) (ids : Ids) : Bool :=
  if LeavesRoot s.creds.uid ids then false else s.permitted

def privilegedAfter (s : Subject) (ids : Ids) : Bool :=
  if LeavesRoot s.creds.uid ids then false
  else if s.creds.uid.effective = 0 ∧ ids.effective ≠ 0 then false
  else if s.creds.uid.effective ≠ 0 ∧ ids.effective = 0 then s.permitted
  else s.creds.privileged

theorem permitted_of_privilegedAfter {s : Subject} {ids : Ids} (h : privilegedAfter s ids) :
    permittedAfter s ids := by
  unfold privilegedAfter at h
  unfold permittedAfter
  split_ifs at h ⊢ with hleave hdown hup
  · exact h
  · exact s.held h

theorem armed_withUids {s : Subject} {ids : Ids} (h : permittedAfter s ids) :
    privilegedAfter s ids ∨ ids.effective ≠ 0 ∧ (ids.real = 0 ∨ ids.saved = 0) := by
  unfold permittedAfter at h
  unfold privilegedAfter
  split_ifs at h ⊢ with hleave hdown hup
  · -- the effective id has left 0, so another id must still be 0
    have hroot : ids.HasRoot := by
      by_contra hnone
      exact hleave ⟨Or.inr (Or.inl hdown.1), hnone⟩
    exact Or.inr ⟨hdown.2, hroot.imp_right (Or.resolve_left · hdown.2)⟩
  · exact Or.inl h
  · rcases s.armed h with hpriv | ⟨hne, hzero⟩
    · exact Or.inl hpriv
    · have hroot : s.creds.uid.HasRoot := hzero.imp_right Or.inr
      have hnew : ids.effective ≠ 0 := fun h0 => hup ⟨hne, h0⟩
      have hstill : ids.HasRoot := by
        by_contra hnone
        exact hleave ⟨hroot, hnone⟩
      exact Or.inr ⟨hnew, hstill.imp_right (Or.resolve_left · hnew)⟩

def Subject.withUids (s : Subject) (ids : Ids) : Subject where
  creds := { s.creds with uid := ids, privileged := privilegedAfter s ids }
  permitted := permittedAfter s ids
  groups := s.groups
  held := permitted_of_privilegedAfter
  armed := armed_withUids

def Subject.withGids (s : Subject) (ids : Ids) : Subject :=
  { s with creds := { s.creds with gid := ids } }

/-- What `ProcessIdentity` leaves to the kernel, for the process `s`. -/
def rules (s : Subject) : CredKernel where
  refuseUid c x := mayTake c c.uid x
  refuseGid c x := mayTake c c.gid x
  stillPrivileged c := privilegedAfter s c.uid

def sysSetid (privileged : Bool) (ids : Ids) (x : UInt32) : BitVec 64 × Ids :=
  if x = keepId then (SysErr.EINVAL.raw, ids)
  else if privileged then (0, Ids.all x)
  else if x = ids.real ∨ x = ids.saved then (0, { ids with effective := x })
  else (SysErr.EPERM.raw, ids)

def ngroupsMax : ℕ := 65536

/-- The kernel reads the length as an `int` and keeps the list sorted. -/
def storedGroups (gids : List UInt32) : List UInt32 :=
  (gids.take (gids.length % 2 ^ 32)).mergeSort

def sysSetgroups (s : Subject) (gids : List UInt32) : BitVec 64 × Subject :=
  if s.creds.privileged = false then (SysErr.EPERM.raw, s)
  else if h : (storedGroups gids).length ≤ ngroupsMax then
    if keepId ∈ storedGroups gids then (SysErr.EINVAL.raw, s)
    else (0, { s with groups := ⟨storedGroups gids, h.trans_lt (by decide)⟩ })
  else (SysErr.EINVAL.raw, s)

def setuid (s : Subject) (uid : UInt32) : Except Errno Unit × Subject :=
  let (ret, ids) := sysSetid s.creds.privileged s.creds.uid uid
  (unitRet ret, s.withUids ids)

def setgid (s : Subject) (gid : UInt32) : Except Errno Unit × Subject :=
  let (ret, ids) := sysSetid s.creds.privileged s.creds.gid gid
  (unitRet ret, s.withGids ids)

def setgroups (s : Subject) (gids : List UInt32) : Except Errno Unit × Subject :=
  let (ret, s) := sysSetgroups s gids
  (unitRet ret, s)

def getresuid (s : Subject) : Except Errno (UInt32 × UInt32 × UInt32) :=
  .ok (s.creds.uid.real, s.creds.uid.effective, s.creds.uid.saved)

def getresgid (s : Subject) : Except Errno (UInt32 × UInt32 × UInt32) :=
  .ok (s.creds.gid.real, s.creds.gid.effective, s.creds.gid.saved)

inductive CredOp
  | setuid (uid : UInt32)
  | setgid (gid : UInt32)
  | setresuid (ruid euid suid : UInt32)
  | setresgid (rgid egid sgid : UInt32)
  | seteuid (euid : UInt32)
  | setegid (egid : UInt32)
  | setgroups (gids : List UInt32)
  deriving DecidableEq, Repr

def Subject.uidCall (s : Subject) (call : CredKernel → Creds → Except Errno Unit × Creds) :
    Except Errno Unit × Subject :=
  ((call (rules s) s.creds).1, s.withUids (call (rules s) s.creds).2.uid)

def Subject.gidCall (s : Subject) (call : CredKernel → Creds → Except Errno Unit × Creds) :
    Except Errno Unit × Subject :=
  ((call (rules s) s.creds).1, s.withGids (call (rules s) s.creds).2.gid)

def perform (s : Subject) : CredOp → Except Errno Unit × Subject
  | .setuid uid => Process.setuid s uid
  | .setgid gid => Process.setgid s gid
  | .setresuid r e sv => s.uidCall fun k c => Process.setresuid k c r e sv
  | .setresgid r e sv => s.gidCall fun k c => Process.setresgid k c r e sv
  | .seteuid e => s.uidCall fun k c => Process.seteuid k c e
  | .setegid e => s.gidCall fun k c => Process.setegid k c e
  | .setgroups gids => Process.setgroups s gids

def session (s : Subject) : List CredOp → List (Except Errno Unit) × Subject
  | [] => ([], s)
  | op :: ops =>
    let (result, t) := perform s op
    let (results, u) := session t ops
    (result :: results, u)

/-- Some run of calls makes the process privileged (again). -/
def Recoverable (s : Subject) : Prop := ∃ ops, (session s ops).2.creds.privileged = true

theorem uidCall_setresuid (s : Subject) (r e sv : UInt32) :
    (s.uidCall fun k c => Process.setresuid k c r e sv).2.creds =
      (Process.setresuid (rules s) s.creds r e sv).2 := by
  generalize hcall : sysSetres (mayTake s.creds s.creds.uid) s.creds.uid r e sv = res
  simp only [Subject.uidCall, Process.setresuid, Subject.withUids, rules, hcall]
  by_cases hsame : res.2 = s.creds.uid
  · simp [hsame, privilegedAfter, LeavesRoot]
  · simp [hsame]

theorem Subject.withUids_self (s : Subject) : s.withUids s.creds.uid = s := by
  have hleave : ¬ LeavesRoot s.creds.uid s.creds.uid := fun h => h.2 h.1
  have hpriv : privilegedAfter s s.creds.uid = s.creds.privileged := by
    simp [privilegedAfter, hleave]
  have hperm : permittedAfter s s.creds.uid = s.permitted := by
    simp [permittedAfter, hleave]
  simp only [withUids, hpriv, hperm]

theorem Subject.withGids_self (s : Subject) : s.withGids s.creds.gid = s := rfl

theorem perform_cases (s : Subject) (op : CredOp) :
    (∃ ids, (perform s op).2 = s.withUids ids) ∨ (∃ ids, (perform s op).2 = s.withGids ids) ∨
      s.creds.privileged = true ∧ ∃ g, (perform s op).2 = { s with groups := g } := by
  cases op with
  | setuid uid => exact Or.inl ⟨_, rfl⟩
  | setgid gid => exact Or.inr (Or.inl ⟨_, rfl⟩)
  | setresuid r e sv => exact Or.inl ⟨_, rfl⟩
  | setresgid r e sv => exact Or.inr (Or.inl ⟨_, rfl⟩)
  | seteuid e => exact Or.inl ⟨_, rfl⟩
  | setegid e => exact Or.inr (Or.inl ⟨_, rfl⟩)
  | setgroups gids =>
    simp only [perform, Process.setgroups, sysSetgroups]
    split_ifs with hpriv hlen hkeep
    · exact Or.inl ⟨_, s.withUids_self.symm⟩
    · exact Or.inl ⟨_, s.withUids_self.symm⟩
    · exact Or.inr (Or.inr ⟨by simpa using hpriv, _, rfl⟩)
    · exact Or.inl ⟨_, s.withUids_self.symm⟩

theorem perform_permitted {s : Subject} (h : s.permitted = false) (op : CredOp) :
    (perform s op).2.permitted = false := by
  rcases perform_cases s op with ⟨ids, hop⟩ | ⟨ids, hop⟩ | ⟨-, g, hop⟩
  · rw [hop]
    simp [Subject.withUids, permittedAfter, h]
  · rw [hop]
    exact h
  · rw [hop]
    exact h

theorem session_cons (s : Subject) (op : CredOp) (ops : List CredOp) :
    session s (op :: ops) =
      ((perform s op).1 :: (session (perform s op).2 ops).1, (session (perform s op).2 ops).2) :=
  rfl

theorem session_invariant {P : Subject → Prop} (hstep : ∀ s op, P s → P (perform s op).2)
    {s : Subject} (hs : P s) (ops : List CredOp) : P (session s ops).2 := by
  induction ops generalizing s with
  | nil => exact hs
  | cons op ops ih =>
    rw [session_cons]
    exact ih (hstep s op hs)

theorem privileged_of_permitted_false {s : Subject} (h : s.permitted = false) :
    s.creds.privileged = false := by
  by_contra hpriv
  have := s.held (by simpa using hpriv)
  simp [h] at this

theorem zero_ne_keepId : (0 : UInt32) ≠ keepId := by decide

theorem seteuid_eq {s : Subject} {e : UInt32} (he : e ≠ keepId)
    (hmay : s.creds.privileged = true ∨
      e ∈ [s.creds.uid.real, s.creds.uid.effective, s.creds.uid.saved]) :
    perform s (.seteuid e) = (.ok (), s.withUids { s.creds.uid with effective := e }) := by
  have hnone : mayTake s.creds s.creds.uid e = none := if_pos hmay
  simp only [perform, Subject.uidCall, Process.seteuid, Process.setresuid, rules,
    sysSetres_effective he, hnone, unitRet_zero]

theorem seteuid_zero {s : Subject} (hperm : s.permitted = true)
    (hzero : s.creds.uid.real = 0 ∨ s.creds.uid.saved = 0) :
    (perform s (.seteuid 0)).1 = .ok () ∧ (perform s (.seteuid 0)).2.creds.privileged = true := by
  have hmem : (0 : UInt32) ∈ [s.creds.uid.real, s.creds.uid.effective, s.creds.uid.saved] := by
    rcases hzero with h | h <;> simp [h]
  have hleave : ¬ LeavesRoot s.creds.uid { s.creds.uid with effective := 0 } :=
    fun h => h.2 (Or.inr (Or.inl rfl))
  rw [seteuid_eq zero_ne_keepId (Or.inr hmem)]
  refine ⟨rfl, ?_⟩
  show privilegedAfter s _ = true
  rw [privilegedAfter, if_neg hleave]
  by_cases heff : s.creds.uid.effective = 0
  · have hpriv := s.armed hperm
    simp only [heff, ne_eq, not_true_eq_false, false_and, or_false] at hpriv
    simp [heff, hpriv]
  · simp [heff, hperm]

theorem recoverable_iff (s : Subject) : Recoverable s ↔ s.permitted = true := by
  constructor
  · rintro ⟨ops, hops⟩
    by_contra hperm
    have hnever : (session s ops).2.permitted = false :=
      session_invariant (P := fun s => s.permitted = false) (fun s op h => perform_permitted h op)
        (by simpa using hperm) ops
    simp [privileged_of_permitted_false hnever] at hops
  · intro hperm
    rcases s.armed hperm with hpriv | ⟨-, hzero⟩
    · exact ⟨[], hpriv⟩
    · exact ⟨[.seteuid 0], (seteuid_zero hperm hzero).2⟩

theorem sysSetres_all {x : UInt32} (hx : x ≠ keepId) (refuse : UInt32 → Option SysErr) (ids : Ids) :
    sysSetres refuse ids x x x =
      match refuse x with
      | some reason => (reason.raw, ids)
      | none => (0, Ids.all x) := by
  have hargs : [x, x, x].filter (· ≠ keepId) = [x, x, x] := by simp [hx]
  rw [sysSetres, hargs]
  cases hrefuse : refuse x with
  | some reason => simp [hrefuse]
  | none => simp [hrefuse, taken, hx, Ids.all]

theorem setresuid_all {s : Subject} {u : UInt32} (hu : u ≠ keepId)
    (hnone : mayTake s.creds s.creds.uid u = none) :
    perform s (.setresuid u u u) = (.ok (), s.withUids (Ids.all u)) := by
  simp only [perform, Subject.uidCall, Process.setresuid, rules, sysSetres_all hu, hnone,
    unitRet_zero]

theorem setresgid_all {s : Subject} {g : UInt32} (hg : g ≠ keepId)
    (hnone : mayTake s.creds s.creds.gid g = none) :
    perform s (.setresgid g g g) = (.ok (), s.withGids (Ids.all g)) := by
  simp only [perform, Subject.gidCall, Process.setresgid, rules, sysSetres_all hg, hnone,
    unitRet_zero]

theorem mayTake_privileged {c : Creds} (h : c.privileged = true) (ids : Ids) (x : UInt32) :
    mayTake c ids x = none :=
  if_pos (Or.inl h)

theorem sysSetres_settled {refuse : UInt32 → Option SysErr} {x : UInt32}
    (hrefuse : ∀ y, refuse y = none → y = x) (r e sv : UInt32) :
    (sysSetres refuse (Ids.all x) r e sv).2 = Ids.all x := by
  rw [sysSetres]
  cases hfind : ([r, e, sv].filter (· ≠ keepId)).findSome? refuse with
  | some reason => rfl
  | none =>
    have htaken : ∀ y ∈ [r, e, sv], taken x y = x := by
      intro y hy
      by_cases hkeep : y = keepId
      · exact if_pos hkeep
      · have hnone := List.findSome?_eq_none_iff.mp hfind y
          (List.mem_filter.mpr ⟨hy, by simpa using hkeep⟩)
        exact (if_neg hkeep).trans (hrefuse y hnone)
    simp only [Ids.all, htaken r (by simp), htaken e (by simp), htaken sv (by simp)]

theorem sysSetid_settled (x y : UInt32) : (sysSetid false (Ids.all x) y).2 = Ids.all x := by
  unfold sysSetid Ids.all
  rw [if_neg (Bool.false_ne_true)]
  split_ifs with hkeep hmine
  · rfl
  · rcases hmine with rfl | rfl <;> rfl
  · rfl

theorem mayTake_settled {c : Creds} (hpriv : c.privileged = false) {x y : UInt32}
    (h : mayTake c (Ids.all x) y = none) : y = x := by
  by_contra hne
  simp [mayTake, hpriv, Ids.all, hne] at h

structure Settled (s : Subject) (u g : UInt32) : Prop where
  uid : s.creds.uid = Ids.all u
  gid : s.creds.gid = Ids.all g
  unprivileged : s.creds.privileged = false

theorem perform_settled {s : Subject} {u g : UInt32} (h : Settled s u g) (op : CredOp) :
    (perform s op).2 = s := by
  have huid : ∀ ids, ids = Ids.all u → s.withUids ids = s := by
    intro ids hids
    rw [hids, ← h.uid]
    exact s.withUids_self
  have hgid : ∀ ids, ids = Ids.all g → s.withGids ids = s := by
    intro ids hids
    rw [hids, ← h.gid]
    exact s.withGids_self
  have hresuid : ∀ r e sv, s.withUids (Process.setresuid (rules s) s.creds r e sv).2.uid = s := by
    intro r e sv
    apply huid
    simp only [Process.setresuid, rules, h.uid]
    exact sysSetres_settled (fun y => mayTake_settled h.unprivileged) r e sv
  have hresgid : ∀ r e sv, s.withGids (Process.setresgid (rules s) s.creds r e sv).2.gid = s := by
    intro r e sv
    apply hgid
    simp only [Process.setresgid, rules, h.gid]
    exact sysSetres_settled (fun y => mayTake_settled h.unprivileged) r e sv
  cases op with
  | setuid uid =>
    apply huid
    rw [h.uid, h.unprivileged]
    exact sysSetid_settled u uid
  | setgid gid =>
    apply hgid
    rw [h.gid, h.unprivileged]
    exact sysSetid_settled g gid
  | setresuid r e sv => exact hresuid r e sv
  | setresgid r e sv => exact hresgid r e sv
  | seteuid e => exact hresuid keepId e keepId
  | setegid e => exact hresgid keepId e keepId
  | setgroups gids => simp [perform, Process.setgroups, sysSetgroups, h.unprivileged]

theorem session_settled {s : Subject} {u g : UInt32} (h : Settled s u g) (ops : List CredOp) :
    (session s ops).2 = s :=
  session_invariant (P := fun t => t = s) (fun t op ht => by rw [ht, perform_settled h]) rfl ops

theorem session_groups {s : Subject} (h : s.permitted = false) (ops : List CredOp) :
    (session s ops).2.groups = s.groups := by
  have hkept : ∀ t op, t.permitted = false ∧ t.groups = s.groups →
      (perform t op).2.permitted = false ∧ (perform t op).2.groups = s.groups := by
    rintro t op ⟨hperm, hgroups⟩
    refine ⟨perform_permitted hperm op, ?_⟩
    rcases perform_cases t op with ⟨ids, hop⟩ | ⟨ids, hop⟩ | ⟨hpriv, g, hop⟩
    · rw [hop]
      exact hgroups
    · rw [hop]
      exact hgroups
    · rw [privileged_of_permitted_false hperm] at hpriv
      cases hpriv
  exact (session_invariant (P := fun t => t.permitted = false ∧ t.groups = s.groups)
    hkept ⟨h, rfl⟩ ops).2

theorem setgroups_unprivileged {s : Subject} (h : s.creds.privileged = false) (gids : List UInt32) :
    perform s (.setgroups gids) = (.error .EPERM, s) := by
  rw [perform, Process.setgroups, sysSetgroups, if_pos h]
  exact congrArg (·, s) (unitRet_raw _)

theorem setgroups_privileged {s : Subject} (hs : s.creds.privileged = true) {gids : List UInt32}
    {stored : Groups} (hstored : storedGroups gids = stored.gids)
    (hlen : stored.gids.length ≤ ngroupsMax) (hkeep : keepId ∉ stored.gids) :
    perform s (.setgroups gids) = (.ok (), { s with groups := stored }) := by
  rw [perform, Process.setgroups, sysSetgroups, if_neg (by simp [hs])]
  simp only [hstored, dif_pos hlen, if_neg hkeep, unitRet_zero]

theorem storedGroups_nil : storedGroups [] = [] := List.mergeSort_nil

theorem storedGroups_singleton (gid : UInt32) : storedGroups [gid] = [gid] :=
  List.mergeSort_singleton gid

def dropTo (u g : UInt32) : List CredOp := [.setgroups [], .setresgid g g g, .setresuid u u u]

theorem withUids_unprivileged {s : Subject} {u : UInt32} (hu : u ≠ 0)
    (hroot : s.creds.uid.HasRoot) :
    (s.withUids (Ids.all u)).permitted = false ∧
      (s.withUids (Ids.all u)).creds.privileged = false := by
  have hleave : LeavesRoot s.creds.uid (Ids.all u) := by
    refine ⟨hroot, fun h => ?_⟩
    rcases h with h | h | h <;> exact hu h
  exact ⟨if_pos hleave, if_pos hleave⟩

theorem withUids_privileged {s : Subject} (hs : s.creds.privileged = true) {u : UInt32}
    (h : ¬ (u ≠ 0 ∧ s.creds.uid.HasRoot)) : (s.withUids (Ids.all u)).creds.privileged = true := by
  have hperm : s.permitted = true := s.held hs
  show privilegedAfter s (Ids.all u) = true
  rw [privilegedAfter]
  by_cases hu : u = 0
  · have hleave : ¬ LeavesRoot s.creds.uid (Ids.all u) := fun hl => hl.2 (Or.inl hu)
    rw [if_neg hleave, if_neg (fun hd => hd.2 hu), hperm, hs, ite_self]
  · have hroot : ¬ s.creds.uid.HasRoot := fun hr => h ⟨hu, hr⟩
    have hleave : ¬ LeavesRoot s.creds.uid (Ids.all u) := fun hl => hroot hl.1
    have hdown : ¬ (s.creds.uid.effective = 0 ∧ (Ids.all u).effective ≠ 0) :=
      fun hd => hroot (Or.inr (Or.inl hd.1))
    rw [if_neg hleave, if_neg hdown, hperm, hs, ite_self]

def noGroups : Groups := ⟨[], by decide⟩

def ungrouped (s : Subject) (g : UInt32) : Subject :=
  { s with groups := noGroups : Subject }.withGids (Ids.all g)

def dropped (s : Subject) (u g : UInt32) : Subject := (ungrouped s g).withUids (Ids.all u)

theorem session_dropTo {s : Subject} {u g : UInt32} (hs : s.creds.privileged = true)
    (hu : u ≠ keepId) (hg : g ≠ keepId) :
    session s (dropTo u g) = ([.ok (), .ok (), .ok ()], dropped s u g) := by
  have hgroups : perform s (.setgroups []) = (.ok (), { s with groups := noGroups }) :=
    setgroups_privileged hs storedGroups_nil (Nat.zero_le _) List.not_mem_nil
  have hgids : perform { s with groups := noGroups } (.setresgid g g g) = (.ok (), ungrouped s g) :=
    setresgid_all hg (mayTake_privileged hs s.creds.gid g)
  have huids : perform (ungrouped s g) (.setresuid u u u) = (.ok (), dropped s u g) :=
    setresuid_all hu (mayTake_privileged hs s.creds.uid u)
  rw [dropTo, session_cons, hgroups]
  dsimp only
  rw [session_cons, hgids]
  dsimp only
  rw [session_cons, huids]
  rfl

theorem session_dropped_iff {s : Subject} {u g : UInt32} (hs : s.creds.privileged = true) :
    (∀ ops, (session (dropped s u g) ops).2 = dropped s u g) ↔ u ≠ 0 ∧ s.creds.uid.HasRoot := by
  constructor
  · intro hstuck
    by_contra hdrop
    -- still privileged, so the groups just given up can be taken back
    have hpriv : (dropped s u g).creds.privileged = true :=
      withUids_privileged (s := ungrouped s g) hs hdrop
    have hback : perform (dropped s u g) (.setgroups [7]) =
        (.ok (), { dropped s u g with groups := ⟨[7], by decide⟩ }) :=
      setgroups_privileged hpriv (storedGroups_singleton 7) (by decide) (by decide)
    have hsame := congrArg (fun t => t.groups.gids) (hstuck [.setgroups [7]])
    rw [session_cons, hback] at hsame
    exact List.cons_ne_nil 7 [] hsame
  · rintro ⟨hu, hroot⟩ ops
    have hdrop := withUids_unprivileged (s := ungrouped s g) hu hroot
    exact session_settled ⟨rfl, rfl, hdrop.2⟩ ops

theorem getgroups_noGroups (buf : List UInt32) : (getgroups noGroups buf).1 = .ok [] := by
  by_cases hbuf : buf = []
  · rw [hbuf, getgroups_nil]
    rfl
  · rw [getgroups_filled hbuf (Nat.zero_le _)]
    rfl

def superuser (groups : Groups) : Subject where
  creds := root
  permitted := true
  groups := groups
  held _ := rfl
  armed _ := Or.inl rfl

def CredOp.SparesUid : CredOp → Prop
  | .setuid _ | .setresuid _ _ _ => False
  | _ => True

def WayBack (s : Subject) : Prop :=
  s.permitted = true ∧ (s.creds.uid.real = 0 ∨ s.creds.uid.saved = 0)

theorem wayBack_withUids {s : Subject} (h : WayBack s) {ids : Ids}
    (hreal : ids.real = s.creds.uid.real) (hsaved : ids.saved = s.creds.uid.saved) :
    WayBack (s.withUids ids) := by
  have hzero : ids.real = 0 ∨ ids.saved = 0 := by
    rw [hreal, hsaved]
    exact h.2
  have hleave : ¬ LeavesRoot s.creds.uid ids := fun hl => hl.2 (hzero.imp_right Or.inr)
  exact ⟨(if_neg hleave).trans h.1, hzero⟩

theorem perform_wayBack {s : Subject} (h : WayBack s) {op : CredOp} (hop : op.SparesUid) :
    WayBack (perform s op).2 := by
  cases op with
  | setuid uid => exact hop.elim
  | setgid gid => exact h
  | setresuid r e sv => exact hop.elim
  | setresgid r e sv => exact h
  | seteuid e =>
    by_cases he : e = keepId
    · subst he
      exact wayBack_withUids h rfl rfl
    · simp only [perform, Subject.uidCall, Process.seteuid, Process.setresuid,
        sysSetres_effective he]
      split
      · exact wayBack_withUids h rfl rfl
      · exact wayBack_withUids h rfl rfl
  | setegid e => exact h
  | setgroups gids =>
    simp only [perform, Process.setgroups, sysSetgroups]
    split_ifs
    · exact h
    · exact h
    · exact h
    · exact h

theorem session_wayBack {s : Subject} (h : WayBack s) {ops : List CredOp}
    (hops : ∀ op ∈ ops, op.SparesUid) : WayBack (session s ops).2 := by
  induction ops generalizing s with
  | nil => exact h
  | cons op ops ih =>
    rw [session_cons]
    exact ih (perform_wayBack h (hops op List.mem_cons_self))
      (fun o ho => hops o (List.mem_cons_of_mem op ho))

theorem setuid_ok {s : Subject} {u : UInt32} (h : (perform s (.setuid u)).1 = .ok ()) :
    (perform s (.setuid u)).2 = s.withUids
      (if s.creds.privileged then Ids.all u else { s.creds.uid with effective := u }) := by
  simp only [perform, Process.setuid, sysSetid] at h ⊢
  split_ifs at h ⊢ with hkeep hpriv hmine
  · rw [unitRet_raw] at h
    cases h
  · rw [unitRet_raw] at h
    cases h
  · rfl
  · rfl
  · rw [unitRet_raw] at h
    cases h

theorem setresuid_ok {s : Subject} {u : UInt32} (hu : u ≠ keepId)
    (h : (perform s (.setresuid u u u)).1 = .ok ()) :
    (perform s (.setresuid u u u)).2 = s.withUids (Ids.all u) := by
  cases hmay : mayTake s.creds s.creds.uid u with
  | none => rw [setresuid_all hu hmay]
  | some reason =>
    simp only [perform, Subject.uidCall, Process.setresuid, rules, sysSetres_all hu, hmay,
      unitRet_raw] at h
    cases h

def setAside : Subject where
  creds := ⟨⟨1000, 1000, 0⟩, Ids.all 1000, false⟩
  permitted := true
  groups := noGroups
  held h := by cases h
  armed _ := Or.inr ⟨by decide, Or.inr rfl⟩

end RustyLibc.Process
