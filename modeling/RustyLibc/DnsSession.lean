import RustyLibc.DnsArrivals
import RustyLibc.DnsEncode

/-!
# A lookup as a session with the nameservers (`dns.rs`)

`Session` says once what the rounds of `query` can do: which calls they make, in
which order and with what outcome, whatever the kernel answers. It has one
constructor for each way a pass of the inner loop ends, and its list of servers
is the one still to be asked. `Exchange` is the same for a whole call of `query`
behind `read_nameservers`. What a lookup sends, how long it waits and how it can
end are inductions over the session that never look at the program again.
-/

namespace RustyLibc.Dns
open Outcome ByteOrder HostCalls

variable {σ : Type}

abbrev Log := List (Event Reply Errno)

def exchange (sock : Fd) (q : List UInt8) (server : Octets) (sent ready : ℕ) (d : Datagram) :
    Log :=
  [⟨.sendto sock q (.new server 53), .ok sent⟩,
    ⟨.poll sock pollIn responseTimeoutMs, .ok ready⟩,
    ⟨.recvfrom sock 512, .ok d⟩]

inductive Session (sock : Fd) (q : List UInt8) (id : UInt16) :
    List Octets → Log → Outcome Errno (Slice × ℕ) → Prop where
  | timeout : Session sock q id [] [] (.err .ETIMEDOUT)
  | unsent {server : Octets} {servers : List Octets} {log : Log} {out : Outcome Errno (Slice × ℕ)}
      (e : Errno) (rest : Session sock q id servers log out) :
      Session sock q id (server :: servers)
        (⟨.sendto sock q (.new server 53), .error e⟩ :: log) out
  | unpolled {server : Octets} {servers : List Octets} (sent : ℕ) (e : Errno) :
      Session sock q id (server :: servers)
        [⟨.sendto sock q (.new server 53), .ok sent⟩,
          ⟨.poll sock pollIn responseTimeoutMs, .error e⟩] (.err e)
  | silent {server : Octets} {servers : List Octets} {log : Log} {out : Outcome Errno (Slice × ℕ)}
      (sent : ℕ) (rest : Session sock q id servers log out) :
      Session sock q id (server :: servers)
        (⟨.sendto sock q (.new server 53), .ok sent⟩ ::
          ⟨.poll sock pollIn responseTimeoutMs, .ok (0 : ℕ)⟩ :: log) out
  | unread {server : Octets} {servers : List Octets} {log : Log} {out : Outcome Errno (Slice × ℕ)}
      (sent ready : ℕ) (e : Errno) (rest : Session sock q id servers log out) :
      Session sock q id (server :: servers)
        (⟨.sendto sock q (.new server 53), .ok sent⟩ ::
          ⟨.poll sock pollIn responseTimeoutMs, .ok ready⟩ ::
          ⟨.recvfrom sock 512, .error e⟩ :: log) out
  | ignored {server : Octets} {servers : List Octets} {log : Log} {out : Outcome Errno (Slice × ℕ)}
      (sent ready : ℕ) {d : Datagram} (other : ¬ Matching id server d)
      (rest : Session sock q id servers log out) :
      Session sock q id (server :: servers) (exchange sock q server sent ready d ++ log) out
  | replied {server : Octets} {servers : List Octets} (sent ready : ℕ) {d : Datagram}
      (answer : Matching id server d) :
      Session sock q id (server :: servers) (exchange sock q server sent ready d)
        (.ok (rbuf d, received d))

def queryId (random : List UInt8) : UInt16 :=
  u16FromBe ((filled 2 random).getD 0 0) ((filled 2 random).getD 1 0)

def framed (random : List UInt8) (sock : Fd) (log : Log) (closed : Except Errno Unit) : Log :=
  ⟨.getrandom 2, .ok random⟩ :: ⟨.socket afInet sockDgram 0, .ok sock⟩ ::
    (log ++ [⟨.close sock, closed⟩])

theorem filterMap_framed {α : Type} (f : Event Reply Errno → Option α) {random : List UInt8}
    {sock : Fd} (log : Log) {closed : Except Errno Unit}
    (hrandom : f ⟨.getrandom 2, .ok random⟩ = none)
    (hsock : f ⟨.socket afInet sockDgram 0, .ok sock⟩ = none)
    (hclosed : f ⟨.close sock, closed⟩ = none) :
    (framed random sock log closed).filterMap f = log.filterMap f := by
  rw [framed, List.filterMap_cons_none hrandom, List.filterMap_cons_none hsock,
    List.filterMap_append, List.filterMap_cons_none hclosed, List.filterMap_nil, List.append_nil]

inductive Exchange (ns : Nameservers) (hostname : List UInt8) (qtype : UInt16) :
    Log → Outcome Errno (Slice × ℕ) → Prop where
  | noId (e : Errno) : Exchange ns hostname qtype [⟨.getrandom 2, .error e⟩] (.err e)
  | refused (random : List UInt8) (unfit : ¬ CanQuery (queryId random) hostname qtype) :
      Exchange ns hostname qtype [⟨.getrandom 2, .ok random⟩] (.err .EINVAL)
  | noSocket (random : List UInt8) (fit : CanQuery (queryId random) hostname qtype) (e : Errno) :
      Exchange ns hostname qtype
        [⟨.getrandom 2, .ok random⟩, ⟨.socket afInet sockDgram 0, .error e⟩] (.err e)
  | asked {random : List UInt8} {sock : Fd} {log : Log} {out : Outcome Errno (Slice × ℕ)}
      (fit : CanQuery (queryId random) hostname qtype)
      (session : Session sock (queryBytes (queryId random) hostname qtype) (queryId random)
        ns.slots log out) (closed : Except Errno Unit) :
      Exchange ns hostname qtype (framed random sock log closed) out

theorem Session.returns {sock : Fd} {q : List UInt8} {id : UInt16} {servers : List Octets}
    {log : Log} {out : Outcome Errno (Slice × ℕ)} (h : Session sock q id servers log out) :
    (∃ r, out = .ok r) ∨ ∃ e, out = .err e := by
  induction h with
  | timeout => exact Or.inr ⟨_, rfl⟩
  | unsent e rest ih => exact ih
  | unpolled sent e => exact Or.inr ⟨e, rfl⟩
  | silent sent rest ih => exact ih
  | unread sent ready e rest ih => exact ih
  | ignored sent ready other rest ih => exact ih
  | replied sent ready answer => exact Or.inl ⟨_, rfl⟩

def RepliedBy (sock : Fd) (q : List UInt8) (id : UInt16) (servers : List Octets) (log : Log)
    (r : Slice × ℕ) : Prop :=
  ∃ server ∈ servers, ∃ before sent ready d,
    log = before ++ exchange sock q server sent ready d ∧ Matching id server d ∧
      r = (rbuf d, received d)

theorem RepliedBy.behind {sock : Fd} {q : List UInt8} {id : UInt16} {servers : List Octets}
    {log : Log} {r : Slice × ℕ} (h : RepliedBy sock q id servers log r) (server : Octets)
    (pass : Log) : RepliedBy sock q id (server :: servers) (pass ++ log) r := by
  obtain ⟨asked, hasked, before, sent, ready, d, rfl, hmatch, hr⟩ := h
  exact ⟨asked, List.mem_cons_of_mem _ hasked, pass ++ before, sent, ready, d,
    (List.append_assoc _ _ _).symm, hmatch, hr⟩

theorem Session.repliedBy {sock : Fd} {q : List UInt8} {id : UInt16} {servers : List Octets}
    {log : Log} {out : Outcome Errno (Slice × ℕ)} (h : Session sock q id servers log out)
    {r : Slice × ℕ} (hr : out = .ok r) : RepliedBy sock q id servers log r := by
  induction h with
  | timeout => cases hr
  | unsent e rest ih => exact (ih hr).behind _ [_]
  | unpolled sent e => cases hr
  | silent sent rest ih => exact (ih hr).behind _ [_, _]
  | unread sent ready e rest ih => exact (ih hr).behind _ [_, _, _]
  | ignored sent ready other rest ih => exact (ih hr).behind _ _
  | @replied server servers sent ready d answer =>
    exact ⟨server, List.mem_cons_self, [], sent, ready, d, rfl, answer, (Outcome.ok.inj hr).symm⟩

section Rounds

variable {net : Net σ} {sock : Fd} {qbuf : Slice} {qlen : ℕ} {id : UInt16}

def settle : Outcome Errno (Option (Slice × ℕ)) → Outcome Errno (Slice × ℕ)
  | .ok (some r) => .ok r
  | .ok none => .err .ETIMEDOUT
  | .err e => .err e
  | .panic => .panic
  | .diverge => .diverge

theorem firstSome_session (net : Net σ) (sock : Fd) (id : UInt16) (hq : qlen ≤ qbuf.len)
    (servers : List Octets) (w : World Reply Errno σ) :
    ∃ log, (Sys.firstSome (slot net sock qbuf qlen id) servers w).2.trace = w.trace ++ log ∧
      Session sock (qbuf.bytes.take qlen) id servers log
        (settle (Sys.firstSome (slot net sock qbuf qlen id) servers w).1) := by
  induction servers generalizing w with
  | nil => exact ⟨[], (List.append_nil _).symm, .timeout⟩
  | cons server servers ih =>
    rcases hrun : slot net sock qbuf qlen id server w with ⟨r, v⟩
    obtain ⟨log, htrace, hsession⟩ := ih v
    rcases slot_cases hq hrun with ⟨e, rfl, hv⟩ | ⟨sent, ⟨e, rfl, hv⟩ | ⟨rfl, hv⟩ |
      ⟨ready, ⟨e, rfl, hv⟩ | ⟨d, rfl, hv⟩⟩⟩
    · rw [Sys.firstSome_cons_none hrun]
      exact ⟨_, by rw [htrace, hv, List.append_assoc]; rfl, .unsent e hsession⟩
    · rw [Sys.firstSome, Sys.bind_of_err hrun]
      exact ⟨_, hv, .unpolled sent e⟩
    · rw [Sys.firstSome_cons_none hrun]
      exact ⟨_, by rw [htrace, hv, List.append_assoc]; rfl, .silent sent hsession⟩
    · rw [Sys.firstSome_cons_none hrun]
      exact ⟨_, by rw [htrace, hv, List.append_assoc]; rfl, .unread sent ready e hsession⟩
    · by_cases hmatch : Matching id server d
      · rw [if_pos hmatch] at hrun
        rw [Sys.firstSome_cons_some hrun]
        exact ⟨_, hv, .replied sent ready hmatch⟩
      · rw [if_neg hmatch] at hrun
        rw [Sys.firstSome_cons_none hrun]
        exact ⟨_, by rw [htrace, hv, List.append_assoc]; rfl, .ignored sent ready hmatch hsession⟩

theorem rounds_session (net : Net σ) (sock : Fd) (id : UInt16) (hq : qlen ≤ qbuf.len)
    (servers : List Octets) (w : World Reply Errno σ) :
    Ends (rounds net sock qbuf qlen id servers w)
      (fun r v => ∃ log, v.trace = w.trace ++ log ∧
        Session sock (qbuf.bytes.take qlen) id (servers ++ servers) log (.ok r))
      (fun e v => ∃ log, v.trace = w.trace ++ log ∧
        Session sock (qbuf.bytes.take qlen) id (servers ++ servers) log (.err e))
      (fun _ => False) := by
  obtain ⟨log, htrace, hsession⟩ := firstSome_session net sock id hq (servers ++ servers) w
  rw [rounds_eq]
  refine Ends.bind (P := fun r v => ∃ log, v.trace = w.trace ++ log ∧
    Session sock (qbuf.bytes.take qlen) id (servers ++ servers) log (settle (.ok r))) ?_ ?_
  · rcases hfirst : Sys.firstSome (slot net sock qbuf qlen id) (servers ++ servers) w with ⟨r, v⟩
    rw [hfirst] at htrace hsession
    cases r with
    | ok r => exact ⟨log, htrace, hsession⟩
    | err e => exact ⟨log, htrace, hsession⟩
    | panic => exact absurd hsession.returns (by simp [settle])
    | diverge => exact absurd hsession.returns (by simp [settle])
  · intro r v hr
    cases r with
    | some r => exact hr
    | none => exact hr

end Rounds

theorem take_buildQuery {buf qbuf : Slice} {id qtype : UInt16} {hostname : List UInt8} {qlen : ℕ}
    (h : buildQuery buf id hostname qtype = .ok (qbuf, qlen)) :
    qbuf.bytes.take qlen = queryBytes id hostname qtype := by
  obtain ⟨⟨-, hfits⟩, hst⟩ := buildQuery_eq_ok.mp h
  obtain ⟨rfl, rfl⟩ := Prod.mk.inj hst
  exact (written_parts buf ((length_queryBytes id hostname qtype).trans_le hfits)).1

theorem index_filled (len i : ℕ) (bs : List UInt8) (hlen : len < 2 ^ 63) (hi : i < len) :
    (⟨filled len bs, by simpa using hlen⟩ : Slice).index i =
      (.ok ((filled len bs).getD i 0) : Outcome Errno UInt8) := by
  have hlt : i < (filled len bs).length := by simpa using hi
  exact Slice.index_of_getElem? (by simp [List.getD, List.getElem?_eq_getElem hlt])

theorem queryServers_exchange (net : Net σ) (ns : Nameservers) (hostname : List UInt8)
    (qtype : UInt16) (s : σ) :
    Exchange ns hostname qtype (queryServers net ns hostname qtype ⟨s, []⟩).2.trace
      (queryServers net ns hostname qtype ⟨s, []⟩).1 := by
  rw [queryServers]
  rcases hrandom : net (.getrandom 2) s with ⟨reply, s₁⟩
  cases reply with
  | error e =>
    rw [Sys.bind_of_err (Sys.call_of_error hrandom)]
    exact .noId e
  | ok random =>
    rw [Sys.bind_of_ok (Sys.call_of_reply hrandom), index_filled 2 0 random (by decide) (by decide),
      Sys.bind_of_ok (Sys.lift_apply _ _), index_filled 2 1 random (by decide) (by decide),
      Sys.bind_of_ok (Sys.lift_apply _ _), ← queryId]
    by_cases hfit : CanQuery (queryId random) hostname qtype
    · obtain ⟨qbuf, qlen, hbuild⟩ := id hfit
      rw [hbuild, Sys.bind_of_ok (Sys.lift_apply _ _)]
      dsimp only
      rcases hsock : net (.socket afInet sockDgram 0) s₁ with ⟨reply, s₂⟩
      cases reply with
      | error e =>
        rw [Sys.bind_of_err (Sys.call_of_error hsock)]
        exact .noSocket random hfit e
      | ok sock =>
        rw [Sys.bind_of_ok (Sys.call_of_reply hsock)]
        have hsent := take_buildQuery hbuild
        have hclosed : ∀ (out : Outcome Errno (Slice × ℕ)) (u v : World Reply Errno σ)
            (closed : Except Errno Unit), (∃ log, u.trace = [⟨.getrandom 2, .ok random⟩,
                ⟨.socket afInet sockDgram 0, .ok sock⟩] ++ log ∧
              Session sock (qbuf.bytes.take qlen) (queryId random) ns.slots log out) →
            v.trace = u.trace ++ [⟨.close sock, closed⟩] →
            Exchange ns hostname qtype v.trace out := by
          intro out u v closed hu hv
          obtain ⟨log, hlog, hsession⟩ := hu
          rw [hv, hlog]
          exact .asked hfit (hsent ▸ hsession) closed
        apply Ends.outcome (P := fun out v => Exchange ns hostname qtype v.trace out)
        exact (rounds_session net sock (queryId random) (buildQuery_le hbuild) ns.active
          ⟨s₂, _⟩).behind_attempt (fun r => hclosed (.ok r)) (fun e => hclosed (.err e))
    · rw [buildQuery_eq_err, Sys.bind_of_err (Sys.lift_apply _ _)]
      · exact .refused random hfit
      · intro h
        exact hfit ⟨_, _, buildQuery_eq_ok.mpr ⟨h, rfl⟩⟩

def sentQuery : Event Reply Errno → Option (List UInt8 × SockAddrIn)
  | ⟨.sendto _ q dest, _⟩ => some (q, dest)
  | _ => none

def takenDatagram : Event Reply Errno → Option Datagram
  | ⟨.recvfrom _ _, .ok d⟩ => some d
  | _ => none

def fatalError : Event Reply Errno → Option Errno
  | ⟨.getrandom _, .error e⟩ => some e
  | ⟨.socket _ _ _, .error e⟩ => some e
  | ⟨.poll _ _ _, .error e⟩ => some e
  | _ => none

def waitMs : Event Reply Errno → Option ℤ
  | ⟨.poll _ _ ms, _⟩ => some ms
  | _ => none

def sends (log : Log) : List (List UInt8 × SockAddrIn) := log.filterMap sentQuery

def taken (log : Log) : List Datagram := log.filterMap takenDatagram

def waits (log : Log) : List ℤ := log.filterMap waitMs

/-- Each wait is of two seconds at most and none is without end, and there are no
more waits than queries. -/
structure Patient (log : Log) : Prop where
  bounded : ∀ ms ∈ waits log, 0 ≤ ms ∧ ms ≤ 2000
  few : (waits log).length ≤ (sends log).length

theorem patient_nil : Patient [] := ⟨by simp [waits], le_rfl⟩

theorem Patient.append {log log' : Log} (h : Patient log) (h' : Patient log') :
    Patient (log ++ log') := by
  refine ⟨fun ms hms => ?_, ?_⟩
  · rw [waits, List.filterMap_append] at hms
    rcases List.mem_append.mp hms with hleft | hright
    · exact h.bounded ms hleft
    · exact h'.bounded ms hright
  · have := h.few
    have := h'.few
    simp only [waits, sends, List.filterMap_append, List.length_append] at *
    omega

def allSends (q : List UInt8) (servers : List Octets) : List (List UInt8 × SockAddrIn) :=
  servers.map fun server => (q, .new server 53)

/-- What a log shows of a session with `servers`: they are asked in their order,
each with one wait and at most one datagram taken, and a session that ends
without a reply and without an error of the kernel has asked them all. -/
structure Traffic (q : List UInt8) (servers : List Octets) (log : Log)
    (out : Outcome Errno (Slice × ℕ)) : Prop where
  sent : sends log <+: allSends q servers
  patient : Patient log
  calls : log.length ≤ 3 * (sends log).length
  ends : (∃ d ∈ taken log, out = .ok (rbuf d, received d)) ∨
    (∃ e ∈ log.filterMap fatalError, out = .err e) ∨
    (out = .err .ETIMEDOUT ∧ sends log = allSends q servers)

theorem Traffic.same_query {q : List UInt8} {servers : List Octets} {log : Log}
    {out : Outcome Errno (Slice × ℕ)} (h : Traffic q servers log out) :
    ∀ query ∈ sends log, query.1 = q := by
  intro query hquery
  obtain ⟨server, -, rfl⟩ := List.mem_map.mp (h.sent.subset hquery)
  rfl

structure OnePass (q : List UInt8) (server : Octets) (pass : Log) : Prop where
  sent : sends pass = [(q, .new server 53)]
  patient : Patient pass
  calls : pass.length ≤ 3

theorem OnePass.last {q : List UInt8} {server : Octets} {servers : List Octets} {pass : Log}
    {out : Outcome Errno (Slice × ℕ)} (h : OnePass q server pass)
    (hout : (∃ d ∈ taken pass, out = .ok (rbuf d, received d)) ∨
      ∃ e ∈ pass.filterMap fatalError, out = .err e) : Traffic q (server :: servers) pass out where
  sent := by
    rw [h.sent, allSends, List.map_cons]
    exact List.prefix_append [_] _
  patient := h.patient
  calls := by
    rw [h.sent]
    exact h.calls
  ends := by
    rcases hout with hout | hout
    · exact Or.inl hout
    · exact Or.inr (Or.inl hout)

theorem OnePass.next {q : List UInt8} {server : Octets} {servers : List Octets} {pass log : Log}
    {out : Outcome Errno (Slice × ℕ)} (h : OnePass q server pass)
    (rest : Traffic q servers log out) : Traffic q (server :: servers) (pass ++ log) out := by
  have hsends : sends (pass ++ log) = (q, .new server 53) :: sends log := by
    rw [sends, List.filterMap_append, ← sends, h.sent]
    rfl
  obtain ⟨hsent, hpatient, hcalls, hends⟩ := rest
  refine ⟨?_, h.patient.append hpatient, ?_, ?_⟩
  · rw [hsends, allSends, List.map_cons]
    exact (List.prefix_cons_inj _).mpr hsent
  · have := h.calls
    rw [hsends, List.length_append, List.length_cons]
    omega
  · rcases hends with ⟨d, hd, hout⟩ | ⟨e, he, hout⟩ | ⟨hout, hall⟩
    · exact Or.inl ⟨d, by simp [taken] at hd ⊢; exact Or.inr hd, hout⟩
    · exact Or.inr (Or.inl ⟨e, by rw [List.filterMap_append]; exact List.mem_append_right _ he, hout⟩)
    · exact Or.inr (Or.inr ⟨hout, by rw [hsends, hall]; rfl⟩)

theorem onePass_sendto (sock : Fd) (q : List UInt8) (server : Octets) (reply : Except Errno ℕ)
    (rest : Log) (hquiet : sends rest = [])
    (hwaits : waits rest = [] ∨ waits rest = [responseTimeoutMs]) (hcalls : rest.length ≤ 2) :
    OnePass q server (⟨.sendto sock q (.new server 53), reply⟩ :: rest) := by
  have hsent : sends (⟨.sendto sock q (.new server 53), reply⟩ :: rest) = [(q, .new server 53)] := by
    change _ :: sends rest = _
    rw [hquiet]
  have hwaits' : waits (⟨.sendto sock q (.new server 53), reply⟩ :: rest) = waits rest := rfl
  refine ⟨hsent, ⟨fun ms hms => ?_, ?_⟩, Nat.succ_le_succ hcalls⟩
  · rw [hwaits'] at hms
    rcases hwaits with hnone | hone
    · simp [hnone] at hms
    · obtain rfl : ms = responseTimeoutMs := by simpa [hone] using hms
      decide
  · rw [hsent, hwaits']
    rcases hwaits with hnone | hone
    · simp [hnone]
    · simp [hone]

theorem Session.traffic {sock : Fd} {q : List UInt8} {id : UInt16} {servers : List Octets}
    {log : Log} {out : Outcome Errno (Slice × ℕ)} (h : Session sock q id servers log out) :
    Traffic q servers log out := by
  induction h with
  | timeout => exact ⟨List.prefix_rfl, patient_nil, le_rfl, Or.inr (Or.inr ⟨rfl, rfl⟩)⟩
  | unsent e rest ih =>
    exact (onePass_sendto sock q _ (.error e) [] rfl (Or.inl rfl) (by decide)).next ih
  | unpolled sent e =>
    exact (onePass_sendto sock q _ (.ok sent) [_] rfl (Or.inr rfl) (by simp)).last
      (Or.inr ⟨e, List.mem_singleton_self e, rfl⟩)
  | silent sent rest ih =>
    exact (onePass_sendto sock q _ (.ok sent) [_] rfl (Or.inr rfl) (by simp)).next ih
  | unread sent ready e rest ih =>
    exact (onePass_sendto sock q _ (.ok sent) [_, _] rfl (Or.inr rfl) (by simp)).next ih
  | ignored sent ready other rest ih =>
    exact (onePass_sendto sock q _ (.ok sent) [_, _] rfl (Or.inr rfl) (by simp)).next ih
  | @replied server servers sent ready d answer =>
    exact (onePass_sendto sock q _ (.ok sent) [_, _] rfl (Or.inr rfl) (by simp)).last
      (Or.inl ⟨d, List.mem_singleton_self d, rfl⟩)

theorem parseHeader_errs {buf : Slice} {n : ℕ} (hn : n ≤ buf.len) :
    Sat (parseHeader buf n) (fun h => h.firstAnswer ≤ n) (fun e => e = .EINVAL ∨ e = .ENOENT) := by
  have hinval : ∀ e : Errno, e = .EINVAL → e = .EINVAL ∨ e = .ENOENT := fun e he => Or.inl he
  unfold parseHeader
  by_cases h12 : n < 12
  · simp [h12]
  · rw [if_neg h12]
    refine ((readU16_sat (by omega)).imp (fun _ h => h) hinval).bind fun flags _ => ?_
    dsimp only
    split_ifs with hnx hrc
    · exact Or.inr rfl
    · exact Or.inl rfl
    · refine ((readU16_sat (by omega)).imp (fun _ h => h) hinval).bind fun qd _ => ?_
      refine ((readU16_sat (by omega)).imp (fun _ h => h) hinval).bind fun an _ => ?_
      have hloop : Sat (forN (skipQuestion buf n) qd.toNat 12) (· ≤ n) (· = .EINVAL) :=
        Sat.forN (fun p _ => (skipQuestion_sat buf n p).imp (fun _ h => h.2) fun _ h => h) _
          (by omega)
      exact (hloop.imp (fun _ h => h) hinval).bind fun p hp => hp

theorem parseAnswers_errs {w : ℕ} {t : UInt16} {buf : Slice} {n : ℕ} (hn : n ≤ buf.len) :
    Sat (parseAnswers w t buf n) (fun _ => True) (fun e => e = .EINVAL ∨ e = .ENOENT) := by
  refine (parseHeader_errs hn).bind fun h hh => ?_
  have hinit : Collected w buf n (h.firstAnswer, .empty w) := ⟨hh, by simp⟩
  have hloop := Sat.forN (fun st hst => answerStep_sat (t := t) hn hst) h.ancount hinit
  refine (hloop.imp (fun _ h => h) fun _ he => Or.inl he).bind fun st hst => ?_
  split_ifs with hzero
  · exact Or.inr rfl
  · trivial

/-- A lookup that ends in `e` without a reply: a call failed, the name cannot be
asked for and nothing was sent, or every server was asked twice. -/
def GaveUp (ns : Nameservers) (hostname : List UInt8) (log : Log) (e : Errno) : Prop :=
  e ∈ log.filterMap fatalError ∨
    (e = .EINVAL ∧ sends log = [] ∧ ¬ (Encodable hostname ∧ hostname.length ≤ 238)) ∨
    (e = .ETIMEDOUT ∧ (sends log).length = 2 * ns.count)

/-- One query, sent to the servers in their order and twice over at most, with no
more than a wait of two seconds for each. -/
structure Paced (ns : Nameservers) (hostname : List UInt8) (qtype : UInt16) (log : Log) : Prop where
  sent : ∃ id, sends log <+: allSends (queryBytes id hostname qtype) ns.slots
  patient : Patient log
  calls : log.length ≤ 3 * (sends log).length + 3

section Framed

variable {ns : Nameservers} {hostname : List UInt8} {id qtype : UInt16} {log : Log}
  {out : Outcome Errno (Slice × ℕ)}

theorem sends_framed (random : List UInt8) (sock : Fd) (log : Log) (closed : Except Errno Unit) :
    sends (framed random sock log closed) = sends log :=
  filterMap_framed sentQuery log rfl rfl rfl

theorem Traffic.paced (h : Traffic (queryBytes id hostname qtype) ns.slots log out)
    (random : List UInt8) (sock : Fd) (closed : Except Errno Unit) :
    Paced ns hostname qtype (framed random sock log closed) := by
  have hwaits : waits (framed random sock log closed) = waits log :=
    filterMap_framed waitMs log rfl rfl rfl
  have hcalls : (framed random sock log closed).length = log.length + 3 := by
    simp [framed]
  refine ⟨⟨id, ?_⟩, ?_, ?_⟩
  · rw [sends_framed]
    exact h.sent
  · refine ⟨?_, ?_⟩
    · rw [hwaits]
      exact h.patient.bounded
    · rw [hwaits, sends_framed]
      exact h.patient.few
  · rw [sends_framed, hcalls]
    exact Nat.add_le_add_right h.calls 3

theorem Traffic.gaveUp (h : Traffic (queryBytes id hostname qtype) ns.slots log out)
    (random : List UInt8) (sock : Fd) (closed : Except Errno Unit) :
    (∃ d ∈ taken (framed random sock log closed), out = .ok (rbuf d, received d)) ∨
      ∃ e, out = .err e ∧ GaveUp ns hostname (framed random sock log closed) e := by
  simp only [GaveUp, sends_framed, filterMap_framed fatalError log rfl rfl rfl]
  rw [taken, filterMap_framed takenDatagram log rfl rfl rfl]
  rcases h.ends with hreply | ⟨e, he, rfl⟩ | ⟨rfl, hall⟩
  · exact Or.inl hreply
  · exact Or.inr ⟨e, rfl, Or.inl he⟩
  · refine Or.inr ⟨.ETIMEDOUT, rfl, Or.inr (Or.inr ⟨rfl, ?_⟩)⟩
    have hcount := ns.count_le
    rw [hall, allSends, List.length_map, Nameservers.slots, Nameservers.active,
      List.length_append, List.length_take, Vector.length_toList]
    omega

theorem Exchange.paced (h : Exchange ns hostname qtype log out) : Paced ns hostname qtype log := by
  cases h with
  | noId e => exact ⟨⟨0, List.nil_prefix⟩, ⟨by simp [waits, waitMs], le_rfl⟩, by simp⟩
  | refused random unfit => exact ⟨⟨0, List.nil_prefix⟩, ⟨by simp [waits, waitMs], le_rfl⟩, by simp⟩
  | noSocket random fit e =>
    exact ⟨⟨0, List.nil_prefix⟩, ⟨by simp [waits, waitMs], le_rfl⟩, by simp⟩
  | asked fit session closed => exact session.traffic.paced _ _ closed

theorem Exchange.ends (h : Exchange ns hostname qtype log out) :
    (∃ d ∈ taken log, out = .ok (rbuf d, received d)) ∨
      ∃ e, out = .err e ∧ GaveUp ns hostname log e := by
  cases h with
  | noId e => exact Or.inr ⟨e, rfl, Or.inl (List.mem_singleton_self e)⟩
  | refused random unfit =>
    rw [canQuery_iff] at unfit
    exact Or.inr ⟨_, rfl, Or.inr (Or.inl ⟨rfl, rfl, unfit⟩)⟩
  | noSocket random fit e => exact Or.inr ⟨e, rfl, Or.inl (List.mem_singleton_self e)⟩
  | asked fit session closed => exact session.traffic.gaveUp _ _ closed

end Framed

theorem received_le (d : Datagram) : received d ≤ (rbuf d).len := by
  rw [Slice.len, rbuf, length_filled]
  exact Nat.min_le_right _ _

/-- A lookup paces its queries, and it returns addresses or rejects a reply only
behind a datagram that it took. -/
structure Disciplined (ns : Nameservers) (hostname : List UInt8) (qtype : UInt16) {w : ℕ}
    (log : Log) (out : Outcome Errno (AddrList w)) : Prop where
  paced : Paced ns hostname qtype log
  ends : (∃ a, out = .ok a ∧ taken log ≠ []) ∨ ∃ e, out = .err e ∧
    (GaveUp ns hostname log e ∨ (e = .EINVAL ∨ e = .ENOENT) ∧ taken log ≠ [])

theorem answered_paced (net : Net σ) (ns : Nameservers) (hostname : List UInt8) (w : ℕ)
    (t : UInt16) (s : σ) : Disciplined ns hostname t
      (answered (queryServers net ns hostname t) (parseAnswers w t) ⟨s, []⟩).2.trace
      (answered (queryServers net ns hostname t) (parseAnswers w t) ⟨s, []⟩).1 := by
  have hexchange := queryServers_exchange net ns hostname t s
  rw [answered_apply]
  refine ⟨hexchange.paced, ?_⟩
  rcases hexchange.ends with ⟨d, hd, hout⟩ | ⟨e, hout, hgave⟩
  · have hsome := List.ne_nil_of_mem hd
    dsimp only
    rw [hout, ok_bind]
    rcases (parseAnswers_errs (w := w) (t := t) (received_le d)).ok_or_err with
      ⟨a, ha, -⟩ | ⟨e, he, hkind⟩
    · exact Or.inl ⟨a, ha, hsome⟩
    · exact Or.inr ⟨e, he, Or.inr ⟨hkind, hsome⟩⟩
  · dsimp only
    rw [hout]
    exact Or.inr ⟨e, rfl, Or.inl hgave⟩

end RustyLibc.Dns
