import RustyLibc.DnsConfig
import RustyLibc.DnsEncode
import RustyLibc.FdTable

/-!
# Resolving a name, from the configuration to the answer (`dns.rs`)

`query` reads the nameservers and then asks them, so a lookup opens a file and a
socket, one behind the other. Each is closed on every way out of the part that
opened it: `read_nameservers` closes the file before it returns a read error and
before it looks at the text, and `query` holds the result of the rounds back
until the socket is closed.
-/

namespace RustyLibc.Resolver
open ByteOrder HostCalls Outcome Resources
open Dns hiding Reply

abbrev Reply : Fd.Request ⊕ Dns.Request → Type := Both Fd.Reply Dns.Reply

variable {σ : Type}

abbrev Kernel (σ : Type) := Host Reply Errno σ

abbrev Call (σ α : Type) := Sys Reply Errno σ α

def query (kernel : Kernel σ) (hostname : List UInt8) (qtype : UInt16) : Call σ (Slice × ℕ) := do
  let ns ← Sys.onLeft (readNameservers (Host.left kernel))
  Sys.onRight (queryServers (Host.right kernel) ns hostname qtype)

def resolveA (kernel : Kernel σ) (hostname : List UInt8) : Call σ AddrList4 :=
  answered (query kernel hostname qtypeA) parseAnswersA

def resolveAaaa (kernel : Kernel σ) (hostname : List UInt8) : Call σ AddrList6 :=
  answered (query kernel hostname qtypeAaaa) parseAnswersAaaa

def socketEffect : Event Dns.Reply Errno → Option Fd.Change
  | ⟨.socket family kind protocol, .ok fd⟩ => some (.acquire fd (.socket family kind protocol))
  | ⟨.close fd, _⟩ => some (.release fd)
  | _ => none

def socketEffects (trace : List (Event Dns.Reply Errno)) : List Fd.Change :=
  trace.filterMap socketEffect

def effects (trace : List (Event Reply Errno)) : List Fd.Change :=
  trace.filterMap (Event.elim Fd.Step.effect socketEffect)

@[simp] theorem socketEffects_append (t u : List (Event Dns.Reply Errno)) :
    socketEffects (t ++ u) = socketEffects t ++ socketEffects u :=
  List.filterMap_append

@[simp] theorem effects_append (t u : List (Event Reply Errno)) :
    effects (t ++ u) = effects t ++ effects u :=
  List.filterMap_append

theorem effects_left (t : List Fd.Step) : effects (t.map Event.inl) = Fd.effects t := by
  rw [effects, List.filterMap_map]
  rfl

theorem effects_right (t : List (Event Dns.Reply Errno)) :
    effects (t.map Event.inr) = socketEffects t := by
  rw [effects, List.filterMap_map]
  rfl

theorem readStep_ends (kernel : Fd.Kernel σ) (f : Fd.RawFd) {st : Slice × ℕ}
    (hlen : st.1.len = 4096) (hroom : st.2 < 4096) (w : World Fd.Reply Errno σ) :
    Ends (readStep kernel f st w)
      (fun
        | .next st', v => st'.1.len = 4096 ∧ st.2 < st'.2 ∧ st'.2 < 4096 ∧
            Fd.effects v.trace = Fd.effects w.trace
        | .done st', v => st'.1.len = 4096 ∧ st'.2 ≤ 4096 ∧
            Fd.effects v.trace = Fd.effects w.trace)
      (fun _ v => Fd.effects v.trace = Fd.effects w.trace ++ [.release f]) (fun _ => False) := by
  obtain ⟨raw, total⟩ := st
  dsimp only at hlen hroom
  obtain ⟨len, hask, ⟨bs, s, -, hpass⟩ | ⟨e, s, -, reply, s', hpass⟩⟩ :=
    readStep_cases kernel f (hlen ▸ hroom) w
  · have hle := bs.property
    have hquiet : Fd.effects (w.trace ++ [⟨.read f len, .ok bs⟩]) = Fd.effects w.trace := by
      rw [Fd.effects_append]
      exact List.append_nil _
    have hlen' : (raw.patch total bs.val).len = 4096 := by rw [Slice.len_patch, hlen]
    rw [hpass]
    split_ifs with hend
    · exact ⟨hlen', by omega, hquiet⟩
    · exact ⟨hlen', by omega, by omega, hquiet⟩
  · rw [hpass]
    exact Fd.effects_append _ _

/-- The read loop with the file open: it ends, and by then the file has been
closed exactly if it ended in an error. -/
theorem readLoop_ends (kernel : Fd.Kernel σ) (f : Fd.RawFd) {raw : Slice} (hraw : raw.len = 4096)
    (w : World Fd.Reply Errno σ) :
    Ends (Sys.loop (readStep kernel f) (raw.len + 1) (raw, 0) w)
      (fun st v => st.1.len = 4096 ∧ st.2 ≤ 4096 ∧ Fd.effects v.trace = Fd.effects w.trace)
      (fun _ v => Fd.effects v.trace = Fd.effects w.trace ++ [.release f]) (fun _ => False) := by
  have hloop := Ends.loop (readStep kernel f)
    (I := fun n st (v : World Fd.Reply Errno σ) => st.1.len = 4096 ∧ n ≤ st.2 ∧ st.2 < 4096 ∧
      Fd.effects v.trace = Fd.effects w.trace)
    (P := fun st v => st.1.len = 4096 ∧ st.2 ≤ 4096 ∧ Fd.effects v.trace = Fd.effects w.trace)
    (Q := fun _ v => Fd.effects v.trace = Fd.effects w.trace ++ [.release f])
    (fun n st v hst => ?_) (raw.len + 1) (n := 0) (s := (raw, 0)) (w := w)
    ⟨hraw, Nat.zero_le _, Nat.zero_lt_succ _, rfl⟩
  · apply hloop.imp (fun _ _ h => h) (fun _ _ h => h)
    rintro v ⟨st, -, hpasses, hroom, -⟩
    omega
  · obtain ⟨hlen, hpasses, hroom, hsame⟩ := hst
    apply (readStep_ends kernel f hlen hroom v).imp _ _ (fun _ h => h)
    · intro r u hr
      cases r with
      | next st' =>
        obtain ⟨hlen', hmore, hroom', hsame'⟩ := hr
        exact ⟨hlen', by omega, hroom', hsame'.trans hsame⟩
      | done st' =>
        obtain ⟨hlen', hfits, hsame'⟩ := hr
        exact ⟨hlen', hfits, hsame'.trans hsame⟩
    · intro e u hr
      rw [hr, hsame]

theorem scanText_sat (text : List Char) :
    Sat (scanText text) (fun _ => True) (fun _ => True) := by
  rcases active_scanText text with ⟨herr, -⟩ | ⟨ns, hok, -⟩
  · rw [herr]
    trivial
  · rw [hok]
    trivial

theorem readNameservers_ends (kernel : Fd.Kernel σ) (s : σ) :
    Ends (readNameservers kernel ⟨s, []⟩) (fun _ v => Paired (Fd.effects v.trace))
      (fun _ v => Paired (Fd.effects v.trace)) (fun _ => False) := by
  have hraw := len_emptyRaw
  unfold readNameservers
  generalize emptyRaw = raw at hraw ⊢
  refine (Ends.call (P := fun f v => Fd.effects v.trace = [.acquire f (.file resolvConf)])
    ?_ ?_).bind fun f v hopen => ?_
  · intro f v htrace
    rw [htrace]
    rfl
  · intro e v htrace
    rw [htrace]
    exact .nil
  · have hpair : Paired (Fd.effects v.trace ++ [.release f]) := by
      rw [hopen]
      exact .single f _
    refine ((readLoop_ends kernel f hraw v).imp (fun _ _ h => h) (fun _ u h => h ▸ hpair)
      (fun _ h => h)).bind fun st u hst => ?_
    obtain ⟨hlen, hfits, hsame⟩ := hst
    dsimp only
    rw [Sys.bind_of_ok (Sys.attempt_apply _ _ _), Slice.range_zero (by omega),
      Sys.bind_of_ok (Sys.lift_apply _ _)]
    have hclosed : Paired (Fd.effects (u.trace ++ [⟨.close f, (kernel (.close f) u.state).1⟩])) := by
      rw [Fd.effects_append, hsame]
      exact hpair
    cases Text.fromUtf8 (st.1.bytes.take st.2) with
    | none => exact hclosed
    | some text =>
      exact Ends.lift ((scanText_sat text).imp (fun _ _ => hclosed) (fun _ _ => hclosed))

section Rounds

variable (net : Net σ) (sock : Fd) (id : UInt16) {qbuf : Slice} {qlen : ℕ} {es : List Fd.Change}
  {w : World Dns.Reply Errno σ}

theorem slot_ends (hq : qlen ≤ qbuf.len) (server : Octets) (hw : socketEffects w.trace = es) :
    Ends (slot net sock qbuf qlen id server w)
      (Early (fun r v => r.2 ≤ r.1.len ∧ socketEffects v.trace = es)
        fun v => socketEffects v.trace = es)
      (fun _ v => socketEffects v.trace = es) (fun _ => False) := by
  rcases hrun : slot net sock qbuf qlen id server w with ⟨r, v⟩
  have hquiet : ∀ t, v.trace = w.trace ++ t → socketEffects t = [] →
      socketEffects v.trace = es := by
    intro t htrace ht
    rw [htrace, socketEffects_append, hw, ht, List.append_nil]
  rcases slot_cases hq hrun with ⟨e, rfl, htrace⟩ | ⟨sent, ⟨e, rfl, htrace⟩ | ⟨rfl, htrace⟩ |
    ⟨ready, ⟨e, rfl, htrace⟩ | ⟨d, rfl, htrace⟩⟩⟩
  · exact hquiet _ htrace rfl
  · exact hquiet _ htrace rfl
  · exact hquiet _ htrace rfl
  · exact hquiet _ htrace rfl
  · split_ifs
    · refine ⟨?_, hquiet _ htrace rfl⟩
      rw [Slice.len, rbuf, length_filled]
      exact Nat.min_le_right _ _
    · exact hquiet _ htrace rfl

theorem rounds_ends (hq : qlen ≤ qbuf.len) (servers : List Octets)
    (hw : socketEffects w.trace = es) :
    Ends (rounds net sock qbuf qlen id servers w)
      (fun r v => r.2 ≤ r.1.len ∧ socketEffects v.trace = es)
      (fun _ v => socketEffects v.trace = es) (fun _ => False) := by
  rw [rounds_eq]
  refine (Ends.firstSome (fun server _ v hv => slot_ends net sock id hq server hv) hw).bind
    fun r v hr => ?_
  cases r with
  | some r => exact hr
  | none => exact hr

end Rounds

theorem buildQuery_sat (buf : Slice) (id : UInt16) (hostname : List UInt8) (qtype : UInt16) :
    Sat (buildQuery buf id hostname qtype) (fun q => q.2 ≤ q.1.len) (fun _ => True) := by
  rcases buildQuery_writes buf id hostname qtype with ⟨-, -, h⟩ | ⟨-, h⟩
  · rw [h]
    exact buildQuery_le h
  · rw [h]
    trivial

theorem queryServers_ends (net : Net σ) (ns : Nameservers) (hostname : List UInt8) (qtype : UInt16)
    (s : σ) : Ends (queryServers net ns hostname qtype ⟨s, []⟩)
      (fun r v => r.2 ≤ r.1.len ∧ Paired (socketEffects v.trace))
      (fun _ v => Paired (socketEffects v.trace)) (fun _ => False) := by
  unfold queryServers
  refine (Ends.call (P := fun _ v => socketEffects v.trace = []) ?_ ?_).bind fun random v hv => ?_
  · intro random v htrace
    rw [htrace]
    rfl
  · intro e v htrace
    rw [htrace]
    exact .nil
  · have hnone : Paired (socketEffects v.trace) := hv ▸ .nil
    obtain ⟨hi, -, hhi⟩ := Slice.index_of_lt (ε := Errno) (s := ⟨filled 2 random, by simp⟩) (i := 0)
      (by simp [Slice.len])
    obtain ⟨lo, -, hlo⟩ := Slice.index_of_lt (ε := Errno) (s := ⟨filled 2 random, by simp⟩) (i := 1)
      (by simp [Slice.len])
    rw [hhi, Sys.bind_of_ok (Sys.lift_apply _ _), hlo, Sys.bind_of_ok (Sys.lift_apply _ _)]
    refine (Ends.lift (P := fun q u => q.2 ≤ q.1.len ∧ u = v)
      ((buildQuery_sat _ _ _ _).imp (fun _ h => ⟨h, rfl⟩) (fun _ _ => hnone))).bind fun q u hq => ?_
    obtain ⟨hle, rfl⟩ := hq
    dsimp only
    refine (Ends.call (P := fun sock v => socketEffects v.trace =
      [.acquire sock (.socket afInet sockDgram 0)]) ?_ ?_).bind fun sock x hx => ?_
    · intro sock x htrace
      rw [htrace, socketEffects_append, hv]
      rfl
    · intro e x htrace
      rw [htrace, socketEffects_append, hv]
      exact .nil
    · have hpair : Paired (socketEffects x.trace ++ [.release sock]) := by
        rw [hx]
        exact .single sock _
      have hclose : ∀ (u v : World Dns.Reply Errno σ) (reply : Except Errno Unit),
          socketEffects u.trace = socketEffects x.trace →
          v.trace = u.trace ++ [⟨.close sock, reply⟩] → Paired (socketEffects v.trace) := by
        intro u v reply hu hv
        rw [hv, socketEffects_append, hu]
        exact hpair
      exact (rounds_ends net sock (u16FromBe hi lo) hle ns.active (w := x) rfl).behind_attempt
        (fun r u v reply hu hv => ⟨hu.1, hclose u v reply hu.2 hv⟩) (fun e => hclose)

theorem query_ends (kernel : Kernel σ) (hostname : List UInt8) (qtype : UInt16) (s : σ) :
    Ends (query kernel hostname qtype ⟨s, []⟩)
      (fun r v => r.2 ≤ r.1.len ∧ Paired (effects v.trace))
      (fun _ v => Paired (effects v.trace)) (fun _ => False) := by
  have hfile : ∀ t : List Fd.Step, Paired (Fd.effects t) →
      Paired (effects ([] ++ t.map Event.inl)) := by
    intro t ht
    rwa [List.nil_append, effects_left]
  refine (Ends.onLeft (P := fun _ v => Paired (effects v.trace))
    ((readNameservers_ends (Host.left kernel) s).imp (fun _ v h => hfile v.trace h)
      (fun _ v h => hfile v.trace h) (fun _ h => h))).bind fun ns v hv => ?_
  have hsock : ∀ t : List (Event Dns.Reply Errno), Paired (socketEffects t) →
      Paired (effects (v.trace ++ t.map Event.inr)) := by
    intro t ht
    rw [effects_append, effects_right]
    exact hv.append ht
  exact Ends.onRight ((queryServers_ends (Host.right kernel) ns hostname qtype v.state).imp
    (fun _ u h => ⟨h.1, hsock u.trace h.2⟩) (fun _ u h => hsock u.trace h) (fun _ h => h))

theorem lookup_ends (kernel : Kernel σ) (hostname : List UInt8) (qtype : UInt16) (w : ℕ)
    (t : UInt16) (s : σ) :
    Ends ((query kernel hostname qtype >>= fun r => Sys.lift (parseAnswers w t r.1 r.2)) ⟨s, []⟩)
      (fun _ v => Paired (effects v.trace)) (fun _ v => Paired (effects v.trace))
      (fun _ => False) := by
  refine (query_ends kernel hostname qtype s).bind fun r v hr => ?_
  exact Ends.lift ((parseAnswers_sat hr.1).imp (fun _ _ => hr.2) (fun _ _ => hr.2))

/-- A lookup returned, it closed every descriptor that it opened exactly once and
no other, and so the table is the one it started with. -/
def Balanced {α : Type} (x : Outcome Errno α × World Reply Errno σ) : Prop :=
  ((∃ a, x.1 = .ok a) ∨ ∃ e, x.1 = .err e) ∧ Paired (effects x.2.trace) ∧
    ∀ T : Fd.Descriptors, Fresh T (effects x.2.trace) → after T (effects x.2.trace) = T

theorem balanced_of_ends {α : Type} {x : Outcome Errno α × World Reply Errno σ}
    (h : Ends x (fun _ v => Paired (effects v.trace)) (fun _ v => Paired (effects v.trace))
      (fun _ => False)) : Balanced x := by
  obtain ⟨r, v⟩ := x
  cases r with
  | ok a => exact ⟨Or.inl ⟨a, rfl⟩, h, fun T hfresh => h.after_eq hfresh⟩
  | err e => exact ⟨Or.inr ⟨e, rfl⟩, h, fun T hfresh => h.after_eq hfresh⟩
  | panic => exact h.elim
  | diverge => exact h.elim

/-- Whatever the kernel answers, `resolve_a` and `resolve_aaaa` return with the
descriptor table they found. -/
theorem resolve_balanced (kernel : Kernel σ) (hostname : List UInt8) (s : σ) :
    Balanced (resolveA kernel hostname ⟨s, []⟩) ∧ Balanced (resolveAaaa kernel hostname ⟨s, []⟩) :=
  ⟨balanced_of_ends (lookup_ends kernel hostname qtypeA 4 qtypeA s),
    balanced_of_ends (lookup_ends kernel hostname qtypeAaaa 16 qtypeAaaa s)⟩

/-- A host that has a configuration and no network; it hands out descriptor 3
twice. -/
def offline : Kernel (List UInt8)
  | .inl (.openat _ _ _ _), left => (.ok 3, left)
  | .inl (.read _ len), left => (.ok ⟨left.take len, List.length_take_le _ _⟩, left.drop len)
  | .inl (.write _ _), left => (.error .EINVAL, left)
  | .inl (.close _), left => (.ok (), left)
  | .inr (.getrandom _), left => (.ok [0x12, 0x34], left)
  | .inr (.socket _ _ _), left => (.ok 3, left)
  | .inr (.sendto _ _ _), left => (.error Errno.EIO, left)
  | .inr (.poll _ _ _), left => (.ok (0 : ℕ), left)
  | .inr (.recvfrom _ _), left => (.error .EAGAIN, left)
  | .inr (.close _), left => (.error .EINTR, left)

def oneLine : List UInt8 := Text.utf8 "nameserver 10.0.0.1\n".toList

def stdio : Fd.Descriptors := fun fd => if 0 ≤ fd ∧ fd ≤ 2 then some (.file []) else none

theorem resolve_balanced_offline :
    (resolveA offline aIo ⟨oneLine, []⟩).1 = .err .ETIMEDOUT ∧
      effects (resolveA offline aIo ⟨oneLine, []⟩).2.trace =
        [.acquire 3 (.file resolvConf), .release 3, .acquire 3 (.socket afInet sockDgram 0),
          .release 3] ∧
      after stdio (effects (resolveA offline aIo ⟨oneLine, []⟩).2.trace) = stdio := by
  have heffects : effects (resolveA offline aIo ⟨oneLine, []⟩).2.trace =
      [.acquire 3 (.file resolvConf), .release 3, .acquire 3 (.socket afInet sockDgram 0),
        .release 3] := by decide +kernel
  refine ⟨by decide +kernel, heffects, ?_⟩
  apply (resolve_balanced offline aIo oneLine).1.2.2 stdio
  rw [heffects]
  exact ⟨rfl, rfl, trivial⟩

end RustyLibc.Resolver
