import RustyLibc.DnsSession

/-!
# What a datagram handed to the parser is known to be

Whatever the host does, a successful query returns a datagram that was received
right after the query had been sent to the server it came from, and that repeats
the ID of that query. Nothing more is tested: not the source port, not the
response bit, not the question.
-/

namespace RustyLibc.Dns
open Outcome ByteOrder HostCalls

variable {σ : Type}

/-- `buf[..n]` holds the datagram `d`, which answers a query for `hostname` and
`qtype` as far as `query` looks. -/
structure Answers (ns : Nameservers) (hostname : List UInt8) (qtype : UInt16) (log : Log)
    (buf : Slice) (n : ℕ) (d : Datagram) : Prop where
  holds : buf = rbuf d ∧ n = received d
  answered : ∃ id qbuf qlen sock sent ready before after, ∃ server ∈ ns.active,
    buildQuery emptyQbuf id hostname qtype = .ok (qbuf, qlen) ∧ Matching id server d ∧
      log = before ++ exchange sock (qbuf.bytes.take qlen) server sent ready d ++ after

theorem Exchange.answers {ns : Nameservers} {hostname : List UInt8} {qtype : UInt16} {log : Log}
    {out : Outcome Errno (Slice × ℕ)} (h : Exchange ns hostname qtype log out) :
    (∃ buf n d, out = .ok (buf, n) ∧ Answers ns hostname qtype log buf n d) ∨
      ∃ e, out = .err e := by
  cases h with
  | noId e => exact Or.inr ⟨e, rfl⟩
  | refused random unfit => exact Or.inr ⟨_, rfl⟩
  | noSocket random fit e => exact Or.inr ⟨e, rfl⟩
  | @asked random sock log out fit session closed =>
    rcases session.returns with ⟨r, hr⟩ | herr
    · obtain ⟨server, hserver, before, sent, ready, d, rfl, hmatch, rfl⟩ := session.repliedBy hr
      obtain ⟨qbuf, qlen, hbuild⟩ := fit
      have hconfigured : server ∈ ns.active := by simpa [Nameservers.slots] using hserver
      refine Or.inl ⟨rbuf d, received d, d, hr, ⟨rfl, rfl⟩, queryId random, qbuf, qlen, sock, sent,
        ready, ⟨.getrandom 2, .ok random⟩ :: ⟨.socket afInet sockDgram 0, .ok sock⟩ :: before,
        [⟨.close sock, closed⟩], server, hconfigured, hbuild, hmatch, ?_⟩
      rw [take_buildQuery hbuild]
      simp [framed]
    · exact Or.inr herr

theorem answered_answers {α : Type} (net : Net σ) (ns : Nameservers) (hostname : List UInt8)
    (qtype : UInt16) (parse : Slice → ℕ → Outcome Errno α) (s : σ)
    {out : Outcome Errno α × World Reply Errno σ}
    (h : answered (queryServers net ns hostname qtype) parse ⟨s, []⟩ = out) :
    (∃ e, queryServers net ns hostname qtype ⟨s, []⟩ = (.err e, out.2) ∧ out.1 = .err e) ∨
      ∃ buf n d, queryServers net ns hostname qtype ⟨s, []⟩ = (.ok (buf, n), out.2) ∧
        Answers ns hostname qtype out.2.trace buf n d ∧ out.1 = parse buf n := by
  have hexchange := queryServers_exchange net ns hostname qtype s
  rw [answered_apply] at h
  rcases hquery : queryServers net ns hostname qtype ⟨s, []⟩ with ⟨r, v⟩
  rw [hquery] at h hexchange
  subst h
  rcases hexchange.answers with ⟨buf, n, d, rfl, hd⟩ | ⟨e, rfl⟩
  · exact Or.inr ⟨buf, n, d, rfl, hd, rfl⟩
  · exact Or.inl ⟨e, rfl, rfl⟩

/-- For every host, list of nameservers and hostname: a query that succeeds
returns a datagram that answers it as far as the address and the ID go. The
parsers are given no other, and a lookup whose query fails ends in the error of
the query, with no call behind it. -/
theorem accepted_datagrams (net : Net σ) (ns : Nameservers) (hostname : List UInt8) (k : σ) :
    (∀ qtype buf n w, queryServers net ns hostname qtype ⟨k, []⟩ = (.ok (buf, n), w) →
        ∃ d, Answers ns hostname qtype w.trace buf n d) ∧
      (∀ out, resolveA net ns hostname ⟨k, []⟩ = out →
        (∃ e, queryServers net ns hostname qtypeA ⟨k, []⟩ = (.err e, out.2) ∧ out.1 = .err e) ∨
          ∃ buf n d, queryServers net ns hostname qtypeA ⟨k, []⟩ = (.ok (buf, n), out.2) ∧
            Answers ns hostname qtypeA out.2.trace buf n d ∧ out.1 = parseAnswersA buf n) ∧
      (∀ out, resolveAaaa net ns hostname ⟨k, []⟩ = out →
        (∃ e, queryServers net ns hostname qtypeAaaa ⟨k, []⟩ = (.err e, out.2) ∧ out.1 = .err e) ∨
          ∃ buf n d, queryServers net ns hostname qtypeAaaa ⟨k, []⟩ = (.ok (buf, n), out.2) ∧
            Answers ns hostname qtypeAaaa out.2.trace buf n d ∧
            out.1 = parseAnswersAaaa buf n) := by
  refine ⟨?_, fun _ h => answered_answers net ns hostname qtypeA parseAnswersA k h,
    fun _ h => answered_answers net ns hostname qtypeAaaa parseAnswersAaaa k h⟩
  intro qtype buf n w hquery
  have hexchange := queryServers_exchange net ns hostname qtype k
  rw [hquery] at hexchange
  rcases hexchange.answers with ⟨buf', n', d, hout, hd⟩ | ⟨e, herr⟩
  · obtain ⟨rfl, rfl⟩ : buf = buf' ∧ n = n' := by simpa using hout
    exact ⟨d, hd⟩
  · cases herr

/-- A datagram that really answers the query `q`: from the address and port the
query went to, with its ID, marked as a response, and for its one question. -/
def ReallyAnswers (q : List UInt8) (server : Octets) (d : Datagram) : Prop :=
  (d.source.octets = server ∧ d.source.hostPort = 53) ∧
    d.payload.take 2 = q.take 2 ∧
    (d.payload.getD 2 0 &&& 0x80 ≠ 0) ∧
    (d.payload.drop 4).take 2 = [0, 1] ∧ q.drop 12 <+: d.payload.drop 12

instance (q : List UInt8) (server : Octets) (d : Datagram) : Decidable (ReallyAnswers q server d) :=
  inferInstanceAs (Decidable (_ ∧ _ ∧ _ ∧ _ ∧ _))

def replying (d : Datagram) : Net Unit := fun r s =>
  match r with
  | .getrandom _ => (.ok [0x12, 0x34], s)
  | .socket _ _ _ => (.ok (3 : ℤ), s)
  | .sendto _ bytes _ => (.ok bytes.length, s)
  | .poll _ _ _ => (.ok (1 : ℕ), s)
  | .recvfrom _ _ => (.ok d, s)
  | .close _ => (.ok (), s)

def otherPort : Datagram := ⟨.new resolver 5353, cannedResponse.bytes⟩

def echoed : Datagram := ⟨.new resolver 53, aIoQuery⟩

def otherQuestion : Datagram := ⟨.new resolver 53, cannedResponse.bytes.set 13 98⟩

example : ReallyAnswers aIoQuery resolver ⟨.new resolver 53, cannedResponse.bytes⟩ := by decide

theorem accepted_datagrams_cannedResponse :
    ∃ buf n w d, queryServers (replying ⟨.new resolver 53, cannedResponse.bytes⟩) oneServer aIo
        qtypeA ⟨(), []⟩ = (.ok (buf, n), w) ∧ Answers oneServer aIo qtypeA w.trace buf n d := by
  have hreturns : (queryServers (replying ⟨.new resolver 53, cannedResponse.bytes⟩) oneServer aIo
      qtypeA ⟨(), []⟩).1.map (fun r => r.2) = .ok 38 := by decide +kernel
  rcases hrun : queryServers (replying ⟨.new resolver 53, cannedResponse.bytes⟩) oneServer aIo
    qtypeA ⟨(), []⟩ with ⟨r, w⟩
  rw [hrun] at hreturns
  obtain ⟨⟨buf, n⟩, rfl, -⟩ := map_eq_ok.mp hreturns
  obtain ⟨d, hd⟩ := (accepted_datagrams _ _ _ _).1 _ _ _ _ hrun
  exact ⟨buf, n, w, d, rfl, hd⟩

def Misaccepted (d : Datagram) : Prop :=
  (queryServers (replying d) oneServer aIo qtypeA ⟨(), []⟩).1.map
      (fun r => r.1.bytes.take r.2) = .ok d.payload ∧
    ¬ ReallyAnswers aIoQuery resolver d

instance (d : Datagram) : Decidable (Misaccepted d) := inferInstanceAs (Decidable (_ ∧ _))

theorem accepted_without_answering :
    Misaccepted otherPort ∧ Misaccepted echoed ∧ Misaccepted otherQuestion := by
  decide +kernel

end RustyLibc.Dns
