import RustyLibc.DnsAccept

/-!
# Lookups over a network of nameservers (`dns.rs`)

The other side of a session. A nameserver has a verdict on every question and
sends it in a reply that repeats the ID of the query; what the resolver should
make of a verdict is `Verdict.resolved`. Safety is stated over logs, so that it
covers every host: on a network where nobody speaks for a nameserver, a lookup
returns the verdict of a configured server on the question it asked, whatever is
lost, late or out of order. Progress is stated over a network that loses queries
or replies but is never late: there a lookup fails only if everything was lost.
-/

namespace RustyLibc.Dns
open Outcome ByteOrder HostCalls

variable {σ : Type}

/-- What a nameserver has to say about a question: a message with whatever follows
its answers (authority and additional records), no longer than a datagram can be,
or a failure, of which nothing behind the header is read. -/
inductive Verdict where
  | answers (m : Message) (more : List UInt8) (small : (m.encode ++ more).length ≤ 65507)
  | fails (flags : UInt16) (rest : List UInt8) (rcode : flags &&& 0x000F ≠ 0)
      (header : 8 ≤ rest.length)

def Verdict.reply (id : UInt16) : Verdict → List UInt8
  | .answers m more _ => { m with id := id }.encode ++ more
  | .fails flags rest _ _ => u16ToBe id ++ (u16ToBe flags ++ rest)

/-- What a lookup should make of a verdict. The resolver takes 512 bytes, and a
message that is cut before the end of its answers counts as malformed. -/
def Verdict.resolved (t : UInt16) (w : ℕ) : Verdict → Outcome Errno (List (List UInt8))
  | .answers m _ _ => if m.encode.length ≤ 512 then m.resolved t w else .err .EINVAL
  | .fails flags _ _ _ => if flags &&& 0x000F = 3 then .err .ENOENT else .err .EINVAL

theorem length_encode_id (m : Message) (id : UInt16) :
    { m with id := id }.encode.length = m.encode.length := by
  rw [Message.length_encode, Message.length_encode]

theorem take_rbuf (d : Datagram) : (rbuf d).bytes.take (received d) = d.payload.take 512 := by
  change (d.payload.take 512 ++ _).take (min d.payload.length 512) = _
  exact List.take_left' (by rw [List.length_take, Nat.min_comm])

theorem parse_answers {w : ℕ} {t id : UInt16} {d : Datagram} {m : Message} {more : List UInt8}
    (small : (m.encode ++ more).length ≤ 65507) (h : d.payload = { m with id := id }.encode ++ more) :
    (parseAnswers w t (rbuf d) (received d)).map AddrList.asSlice =
      (Verdict.answers m more small).resolved t w := by
  have hid := length_encode_id m id
  have hpayload : d.payload.length = m.encode.length + more.length := by
    rw [h, List.length_append, hid]
  have hfront : { m with id := id }.encode <+: d.payload := ⟨more, h.symm⟩
  by_cases hfits : m.encode.length ≤ 512
  · have hbuf : Holds (rbuf d) 0 { m with id := id }.encode := by
      have htaken : { m with id := id }.encode <+: d.payload.take 512 :=
        List.prefix_take_iff.mpr ⟨hfront, hid.trans_le hfits⟩
      exact htaken.trans (List.prefix_append _ _)
    have hwhole : { m with id := id }.encode.length ≤ received d := by
      rw [hid, received]
      omega
    rw [hbuf.parseAnswers hwhole (received_le d), Verdict.resolved, if_pos hfits]
    rfl
  · -- Only the first 512 bytes of the message are in the buffer.
    have hn : received d = 512 := by
      rw [received]
      omega
    let whole : Slice := ⟨d.payload, by
      rw [List.length_append] at small
      omega⟩
    have hbuf : Holds whole 0 { m with id := id }.encode := hfront
    have hcut : 512 < { m with id := id }.encode.length := by omega
    have hsame : (rbuf d).bytes.take 512 = { m with id := id }.encode.take 512 := by
      have htake := take_rbuf d
      rw [hn] at htake
      rw [htake, h, List.take_append_of_le_length hcut.le]
    rw [hn, hbuf.parseAnswers_upTo hcut (hn ▸ received_le d) hsame, Verdict.resolved,
      if_neg hfits]
    rfl

theorem parse_fails {w : ℕ} {t id flags : UInt16} {d : Datagram} {rest : List UInt8}
    (rcode : flags &&& 0x000F ≠ 0) (header : 8 ≤ rest.length)
    (h : d.payload = u16ToBe id ++ (u16ToBe flags ++ rest)) :
    (parseAnswers w t (rbuf d) (received d)).map AddrList.asSlice =
      (Verdict.fails flags rest rcode header).resolved t w := by
  have hlen : 12 ≤ d.payload.length := by
    rw [h]
    simp only [List.length_append, length_u16ToBe]
    omega
  have hn : ¬ received d < 12 := by
    rw [received]
    omega
  have hflags : Holds (rbuf d) 2 (u16ToBe flags) := by
    have hfront : u16ToBe id ++ u16ToBe flags <+: d.payload.take 512 := by
      refine List.prefix_take_iff.mpr ⟨?_, by simp⟩
      rw [h, ← List.append_assoc]
      exact List.prefix_append _ _
    have hholds : Holds (rbuf d) 0 (u16ToBe id ++ u16ToBe flags) :=
      hfront.trans (List.prefix_append _ _)
    exact hholds.right
  rw [parseAnswers, parseHeader, if_neg hn, hflags.readU16, ok_bind, Verdict.resolved]
  dsimp only
  by_cases hnx : flags &&& 0x000F = 3
  · rw [if_pos hnx, if_pos hnx]
    rfl
  · rw [if_neg hnx, if_pos rcode, if_neg hnx]
    rfl

theorem parse_verdict {w : ℕ} {t id : UInt16} {d : Datagram} {v : Verdict}
    (h : d.payload = v.reply id) :
    (parseAnswers w t (rbuf d) (received d)).map AddrList.asSlice = v.resolved t w := by
  cases v with
  | answers m more small => exact parse_answers small h
  | fails flags rest rcode header => exact parse_fails rcode header h

abbrev Zone := Octets → List UInt8 → UInt16 → Verdict

def RepliesTo (zone : Zone) (server : Octets) (q payload : List UInt8) : Prop :=
  ∃ id hostname qtype, Encodable hostname ∧ q = queryBytes id hostname qtype ∧
    payload = (zone server hostname qtype).reply id

/-- A network that may lose, delay, reorder and repeat what it carries, but on
which nobody speaks for a nameserver: what comes from its address is its reply to
a query that was sent to it, or belongs to another lookup and carries an ID that
has not been used here. What comes from elsewhere is arbitrary. -/
def Honest (zone : Zone) (servers : List Octets) (log : Log) : Prop :=
  ∀ before sock d after, log = before ++ ⟨.recvfrom sock 512, .ok d⟩ :: after →
    d.source.octets ∈ servers →
    (∃ q, (q, .new d.source.octets 53) ∈ sends before ∧
        RepliesTo zone d.source.octets q d.payload) ∨
      ∀ query ∈ sends before, messageId query.1 ≠ messageId d.payload

theorem messageId_queryBytes (id : UInt16) (hostname : List UInt8) (qtype : UInt16) :
    messageId (queryBytes id hostname qtype) = some id := by
  obtain ⟨hi, lo, hbytes, hval⟩ := u16ToBe_eq id
  rw [queryBytes, hbytes]
  exact congrArg some hval

theorem RepliedBy.verdict {zone : Zone} {sock : Fd} {id qtype : UInt16} {hostname : List UInt8}
    {servers known : List Octets} {log : Log} {r : Slice × ℕ} {random : List UInt8}
    {closed : Except Errno Unit}
    (h : RepliedBy sock (queryBytes id hostname qtype) id servers log r)
    (hknown : servers ⊆ known) (hvalid : Encodable hostname)
    (hsent : ∀ query ∈ sends log, query.1 = queryBytes id hostname qtype)
    (hhonest : Honest zone known (framed random sock log closed)) :
    ∃ server ∈ servers, ∃ d, d.payload = (zone server hostname qtype).reply id ∧
      r = (rbuf d, received d) := by
  obtain ⟨server, hserver, before, sent, ready, d, rfl, ⟨hsource, -, hid⟩, hr⟩ := h
  refine ⟨server, hserver, d, ?_, hr⟩
  let prior : Log := ⟨.getrandom 2, .ok random⟩ :: ⟨.socket afInet sockDgram 0, .ok sock⟩ ::
    (before ++ [⟨.sendto sock (queryBytes id hostname qtype) (.new server 53), .ok sent⟩,
      ⟨.poll sock pollIn responseTimeoutMs, .ok ready⟩])
  have hprior : framed random sock
      (before ++ exchange sock (queryBytes id hostname qtype) server sent ready d) closed =
        prior ++ ⟨.recvfrom sock 512, .ok d⟩ :: [⟨.close sock, closed⟩] := by
    simp [framed, exchange, prior]
  have hsends : sends prior = sends before ++ [(queryBytes id hostname qtype, .new server 53)] := by
    have hopen : sends prior = sends (before ++ [_, _]) := rfl
    rw [hopen, sends, List.filterMap_append]
    rfl
  have hsame : ∀ query ∈ sends prior, query.1 = queryBytes id hostname qtype := by
    intro query hquery
    apply hsent query
    rw [hsends] at hquery
    rw [sends, List.filterMap_append]
    exact hquery
  rcases hhonest prior sock d _ hprior (hsource ▸ hknown hserver) with
    ⟨q, hq, id', hostname', qtype', hvalid', hbytes, hpayload⟩ | hother
  · have hq : q = queryBytes id hostname qtype := hsame _ hq
    obtain ⟨rfl, rfl, rfl⟩ := queryBytes_inj hvalid.2 hvalid'.2 (hq.symm.trans hbytes)
    rw [hpayload, hsource]
  · have hlast : (queryBytes id hostname qtype, SockAddrIn.new server 53) ∈ sends prior := by
      rw [hsends]
      exact List.mem_append_right _ (List.mem_singleton_self _)
    exact absurd (messageId_queryBytes id hostname qtype) (hid ▸ hother _ hlast)

theorem Exchange.verdict {zone : Zone} {ns : Nameservers} {hostname : List UInt8} {qtype : UInt16}
    {log : Log} {out : Outcome Errno (Slice × ℕ)} (h : Exchange ns hostname qtype log out)
    (hhonest : Honest zone ns.active log) :
    (∃ server ∈ ns.active, ∃ id d, d.payload = (zone server hostname qtype).reply id ∧
        out = .ok (rbuf d, received d)) ∨
      ∃ e, out = .err e ∧ GaveUp ns hostname log e := by
  rcases h.ends with ⟨d, hd, hout⟩ | hgave
  · cases h with
    | noId e => cases hout
    | refused random unfit => cases hout
    | noSocket random fit e => cases hout
    | asked fit session closed =>
      have hvalid := (canQuery_iff.mp fit).1
      have hknown : ns.slots ⊆ ns.active := fun server hserver => by
        simpa [Nameservers.slots] using hserver
      obtain ⟨server, hserver, d, hpayload, hr⟩ :=
        (session.repliedBy hout).verdict hknown hvalid session.traffic.same_query hhonest
      exact Or.inl ⟨server, hknown hserver, _, d, hpayload, by rw [hout, hr]⟩
  · exact Or.inr hgave

theorem answered_verdict {zone : Zone} (net : Net σ) (ns : Nameservers) (hostname : List UInt8)
    (w : ℕ) (t : UInt16) (s : σ) {out : Outcome Errno (AddrList w) × World Reply Errno σ}
    (hout : answered (queryServers net ns hostname t) (parseAnswers w t) ⟨s, []⟩ = out)
    (h : Honest zone ns.active out.2.trace) :
    (∃ server ∈ ns.active, out.1.map AddrList.asSlice = (zone server hostname t).resolved t w) ∨
      ∃ e, out.1 = .err e ∧ GaveUp ns hostname out.2.trace e := by
  rw [answered_apply] at hout
  subst hout
  rcases (queryServers_exchange net ns hostname t s).verdict h with
    ⟨server, hserver, id, d, hpayload, hout⟩ | ⟨e, hout, hgave⟩
  · refine Or.inl ⟨server, hserver, ?_⟩
    dsimp only
    rw [hout, ok_bind]
    exact parse_verdict hpayload
  · refine Or.inr ⟨e, ?_, hgave⟩
    dsimp only
    rw [hout]
    rfl

def cannedZone : Zone := fun _ _ _ => .answers cannedMessage [] (by decide)

theorem reply_cannedZone (server : Octets) (hostname : List UInt8) (qtype : UInt16) :
    (cannedZone server hostname qtype).reply 0x1234 = cannedResponse.bytes := by
  rw [cannedZone]
  decide

set_option maxRecDepth 4000 in
theorem honest_goodReply :
    Honest cannedZone oneServer.active
      (resolveA (replying goodReply) oneServer aIo ⟨(), []⟩).2.trace := by
  have htrace : (resolveA (replying goodReply) oneServer aIo ⟨(), []⟩).2.trace =
      framed [0x12, 0x34] 3 (exchange 3 aIoQuery resolver 22 1 goodReply) (.ok ()) := rfl
  have hquery : aIoQuery = queryBytes 0x1234 aIo qtypeA := by decide +kernel
  rw [htrace]
  intro before sock d after hlog hsource
  -- The datagram is the fifth entry of the log, two behind the query.
  obtain ⟨rfl, ⟨-, rfl⟩, -⟩ : before = [⟨.getrandom 2, .ok [0x12, 0x34]⟩,
      ⟨.socket afInet sockDgram 0, .ok 3⟩, ⟨.sendto 3 aIoQuery (.new resolver 53), .ok 22⟩,
      ⟨.poll 3 pollIn responseTimeoutMs, .ok (1 : ℕ)⟩] ∧ (sock = 3 ∧ d = goodReply) ∧
      after = [⟨.close 3, .ok ()⟩] := by
    simpa [framed, exchange, List.cons_eq_append_iff] using hlog
  refine Or.inl ⟨aIoQuery, List.mem_singleton_self _, 0x1234, aIo, qtypeA, by decide +kernel, hquery,
    (reply_cannedZone _ _ _).symm⟩

structure Wire where
  asked : ℕ
  queue : List Datagram

/-- A network that delivers `copies t` replies to query number `t`, none if the
query or its reply is lost, before anything else happens. -/
def prompt (random : UInt8 × UInt8) (sock : Fd) (serve : Octets → List UInt8 → List UInt8)
    (copies : ℕ → ℕ) : Net Wire := fun r s =>
  match r with
  | .getrandom _ => (.ok [random.1, random.2], s)
  | .socket _ _ _ => (.ok sock, s)
  | .sendto _ q dest =>
    (.ok q.length, ⟨s.asked + 1, s.queue ++
      List.replicate (copies s.asked) ⟨dest, serve dest.octets q⟩⟩)
  | .poll _ _ _ => (.ok (if s.queue = [] then (0 : ℕ) else 1), s)
  | .recvfrom _ _ =>
    match s.queue with
    | [] => (.error .EAGAIN, s)
    | d :: rest => (.ok d, ⟨s.asked, rest⟩)
  | .close _ => (.ok (), s)

def Answering (zone : Zone) (serve : Octets → List UInt8 → List UInt8) : Prop :=
  ∀ server id hostname qtype, Encodable hostname →
    serve server (queryBytes id hostname qtype) = (zone server hostname qtype).reply id

def firstHeard (copies : ℕ → ℕ) : ℕ → List Octets → Option Octets
  | _, [] => none
  | t, server :: servers => if copies t = 0 then firstHeard copies (t + 1) servers else some server

theorem matching_reply {id : UInt16} {server : Octets} {v : Verdict} :
    Matching id server ⟨.new server 53, v.reply id⟩ := by
  refine ⟨rfl, ?_, ?_⟩
  · cases v with
    | answers m more small =>
      simp only [Verdict.reply, List.length_append, Message.length_encode]
      omega
    | fails flags rest rcode header =>
      simp only [Verdict.reply, List.length_append, length_u16ToBe]
      omega
  · obtain ⟨hi, lo, hbytes, hval⟩ := u16ToBe_eq id
    cases v with
    | answers m more small =>
      simp only [Verdict.reply, Message.encode, Message.header, hbytes]
      exact congrArg some hval
    | fails flags rest rcode header =>
      simp only [Verdict.reply, hbytes]
      exact congrArg some hval

section Prompt

variable {zone : Zone} {random : UInt8 × UInt8} {sock : Fd} {copies : ℕ → ℕ}
  {serve : Octets → List UInt8 → List UInt8} {qbuf : Slice} {qlen : ℕ} {id qtype : UInt16}
  {hostname : List UInt8}

theorem slot_prompt (hserve : Answering zone serve) (hvalid : Encodable hostname)
    (hq : qlen ≤ qbuf.len) (hsent : qbuf.bytes.take qlen = queryBytes id hostname qtype)
    (server : Octets) (t : ℕ) (log : Log) :
    let d : Datagram := ⟨.new server 53, (zone server hostname qtype).reply id⟩
    ∃ queue log', slot (prompt random sock serve copies) sock qbuf qlen id server ⟨⟨t, []⟩, log⟩ =
      if copies t = 0 then (.ok none, ⟨⟨t + 1, []⟩, log'⟩)
      else (.ok (some (rbuf d, received d)), ⟨⟨t + 1, queue⟩, log'⟩) := by
  intro d
  have hreply : serve (SockAddrIn.new server 53).octets (qbuf.bytes.take qlen) = d.payload := by
    rw [hsent]
    exact hserve server id hostname qtype hvalid
  have hsend : prompt random sock serve copies (.sendto sock (qbuf.bytes.take qlen) (.new server 53))
      ⟨t, []⟩ = (.ok (qbuf.bytes.take qlen).length, ⟨t + 1, List.replicate (copies t) d⟩) := by
    simp only [prompt, hreply, List.nil_append]
    rfl
  cases hcopies : copies t with
  | zero =>
    rw [hcopies] at hsend
    have hpoll : prompt random sock serve copies (.poll sock pollIn responseTimeoutMs) ⟨t + 1, []⟩ =
        (.ok (0 : ℕ), ⟨t + 1, []⟩) := rfl
    obtain ⟨log', hslot⟩ : ∃ log', slot (prompt random sock serve copies) sock qbuf qlen id server
        ⟨⟨t, []⟩, log⟩ = (.ok none, ⟨⟨t + 1, []⟩, log'⟩) := slot_of_timeout hq hsend hpoll
    exact ⟨[], log', by rw [if_pos rfl]; exact hslot⟩
  | succ n =>
    rw [hcopies, List.replicate_succ] at hsend
    have hpoll : prompt random sock serve copies (.poll sock pollIn responseTimeoutMs)
        ⟨t + 1, d :: List.replicate n d⟩ = (.ok (1 : ℕ), ⟨t + 1, d :: List.replicate n d⟩) := rfl
    have hrecv : prompt random sock serve copies (.recvfrom sock 512)
        ⟨t + 1, d :: List.replicate n d⟩ = (.ok d, ⟨t + 1, List.replicate n d⟩) := rfl
    obtain ⟨log', hslot⟩ : ∃ log', slot (prompt random sock serve copies) sock qbuf qlen id server
        ⟨⟨t, []⟩, log⟩ = (.ok (if Matching id server d then some (rbuf d, received d) else none),
          ⟨⟨t + 1, List.replicate n d⟩, log'⟩) :=
      slot_of_datagram hq hsend hpoll Nat.one_ne_zero hrecv
    rw [if_pos matching_reply] at hslot
    exact ⟨_, log', by rw [if_neg n.succ_ne_zero]; exact hslot⟩

variable (random sock copies) in
theorem firstSome_prompt (hserve : Answering zone serve) (hvalid : Encodable hostname)
    (hq : qlen ≤ qbuf.len) (hsent : qbuf.bytes.take qlen = queryBytes id hostname qtype)
    (servers : List Octets) (t : ℕ) (log : Log) :
    (Sys.firstSome (slot (prompt random sock serve copies) sock qbuf qlen id) servers
        ⟨⟨t, []⟩, log⟩).1 =
      .ok ((firstHeard copies t servers).map fun server =>
        let d : Datagram := ⟨.new server 53, (zone server hostname qtype).reply id⟩
        (rbuf d, received d)) := by
  induction servers generalizing t log with
  | nil => rfl
  | cons server servers ih =>
    obtain ⟨queue, log', hslot⟩ : ∃ queue log',
        slot (prompt random sock serve copies) sock qbuf qlen id server ⟨⟨t, []⟩, log⟩ = _ :=
      slot_prompt hserve hvalid hq hsent server t log
    by_cases hcopies : copies t = 0
    · rw [if_pos hcopies] at hslot
      rw [Sys.firstSome_cons_none hslot, ih, firstHeard, if_pos hcopies]
    · rw [if_neg hcopies] at hslot
      rw [Sys.firstSome_cons_some hslot, firstHeard, if_neg hcopies]
      rfl

def Zone.outcome (zone : Zone) (hostname : List UInt8) (t : UInt16) (w : ℕ) :
    Option Octets → Outcome Errno (List (List UInt8))
  | some server => (zone server hostname t).resolved t w
  | none => .err .ETIMEDOUT

/-- On a network that is never late a lookup ends in the verdict of the first
server that is heard, counting both rounds, and in `ETIMEDOUT` only if no query
was answered at all. -/
theorem answered_prompt (hserve : Answering zone serve) (hvalid : Encodable hostname)
    (hshort : hostname.length ≤ 238) (ns : Nameservers) (w : ℕ) (t : UInt16) :
    (answered (queryServers (prompt random sock serve copies) ns hostname t) (parseAnswers w t)
        ⟨⟨0, []⟩, []⟩).1.map AddrList.asSlice =
      zone.outcome hostname t w (firstHeard copies 0 ns.slots) := by
  obtain ⟨qbuf, qlen, hbuild⟩ : CanQuery (u16FromBe random.1 random.2) hostname t :=
    canQuery_iff.mpr ⟨hvalid, hshort⟩
  have hsent : qbuf.bytes.take qlen = queryBytes (u16FromBe random.1 random.2) hostname t :=
    take_buildQuery hbuild
  obtain ⟨log, hout⟩ : ∃ log, (queryServers (prompt random sock serve copies) ns hostname t
      ⟨⟨0, []⟩, []⟩).1 = (rounds (prompt random sock serve copies) sock qbuf qlen
        (u16FromBe random.1 random.2) ns.active ⟨⟨0, []⟩, log⟩).1 :=
    queryServers_eq_rounds rfl hbuild rfl
  have hfirst := firstSome_prompt random sock copies hserve hvalid (buildQuery_le hbuild) hsent
    ns.slots 0 log
  rcases hrun : Sys.firstSome (slot (prompt random sock serve copies) sock qbuf qlen
    (u16FromBe random.1 random.2)) ns.slots ⟨⟨0, []⟩, log⟩ with ⟨r, v⟩
  rw [hrun] at hfirst
  obtain rfl := hfirst
  rw [rounds_eq, ← Nameservers.slots, Sys.bind_of_ok hrun] at hout
  rw [answered_apply]
  dsimp only
  rw [hout]
  cases firstHeard copies 0 ns.slots with
  | none => rfl
  | some server => exact parse_verdict rfl

end Prompt

end RustyLibc.Dns
