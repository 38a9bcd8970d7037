import RustyLibc.DnsQuery
import RustyLibc.SlotQueue

/-!
# Replies that wait behind other datagrams

The socket is a queue, and a pass of the inner loop of `query` takes at most one
datagram from it: after one that does not match the loop goes on to the next
server instead of waiting on. A slot is one pass; slot `t` asks server `t` of the
list of servers twice over. `ReplyInWindow` says that a matching reply arrives
while some slot waits, and `ReturnsReply` that the query hands over a reply to
the slot it was received in. Whether it does depends on whose turn it is when a
reply comes to the front of the queue.
-/

namespace RustyLibc.Dns
open Outcome ByteOrder HostCalls SlotQueue

structure Inbox where
  slot : ℕ
  queue : List Datagram

/-- A host that delivers `arrivals t` while slot `t` waits and on which no call
fails. `random` are the bytes of the query ID. -/
def fifo (random : UInt8 × UInt8) (sock : Fd) (arrivals : ℕ → List Datagram) : Net Inbox :=
  fun r s =>
    match r with
    | .getrandom _ => (.ok [random.1, random.2], s)
    | .socket _ _ _ => (.ok sock, s)
    | .sendto _ bytes _ => (.ok bytes.length, s)
    | .poll _ _ _ =>
      let queue := s.queue ++ arrivals s.slot
      (.ok (if queue = [] then (0 : ℕ) else 1), ⟨s.slot + 1, queue⟩)
    | .recvfrom _ _ =>
      match s.queue with
      | [] => (.error .EAGAIN, s)
      | d :: rest => (.ok d, ⟨s.slot, rest⟩)
    | .close _ => (.ok (), s)

def Nameservers.slots (ns : Nameservers) : List Octets := ns.active ++ ns.active

def ReplyInWindow (ns : Nameservers) (id : UInt16) (arrivals : ℕ → List Datagram) : Prop :=
  ∃ t server d, ns.slots[t]? = some server ∧ d ∈ arrivals t ∧ Matching id server d

def Turned (arrivals : ℕ → List Datagram) (id : UInt16) (servers : List Octets) (d : ℕ)
    (queue : List Datagram) (a : Datagram) : Prop :=
  ∃ t server, (t, a) ∈ turns d (backlog arrivals d queue servers.length) ∧
    servers[t - d]? = some server ∧ Matching id server a

/-- Some datagram, when its turn comes, matches the server of that slot. -/
def TurnMatches (ns : Nameservers) (id : UInt16) (arrivals : ℕ → List Datagram) : Prop :=
  ∃ t server a, (t, a) ∈ turns 0 (upcoming arrivals 0 ns.slots.length) ∧
    ns.slots[t]? = some server ∧ Matching id server a

def ReturnsReply (ns : Nameservers) (id : UInt16) (arrivals : ℕ → List Datagram)
    (out : Outcome Errno (Slice × ℕ)) : Prop :=
  ∃ t server d, ns.slots[t]? = some server ∧ (∃ s ≤ t, d ∈ arrivals s) ∧ Matching id server d ∧
    out = .ok (rbuf d, received d)

section Slots

variable {random : UInt8 × UInt8} {sock : Fd} {arrivals : ℕ → List Datagram} {qbuf : Slice}
  {qlen : ℕ} {id : UInt16}

theorem getElem?_cons_turn (server : Octets) (servers : List Octets) {d t : ℕ} (h : d + 1 ≤ t) :
    (server :: servers)[t - d]? = servers[t - (d + 1)]? := by
  have ht : t - d = t - (d + 1) + 1 := by omega
  rw [ht, List.getElem?_cons_succ]

theorem turned_nil {d : ℕ} {queue : List Datagram} (h : queue ++ arrivals d = [])
    (server : Octets) (servers : List Octets) (a : Datagram) :
    Turned arrivals id (server :: servers) d queue a ↔ Turned arrivals id servers (d + 1) [] a := by
  unfold Turned
  rw [List.length_cons, turns_backlog_nil h]
  refine exists_congr fun t => exists_congr fun s => and_congr_right fun hmem => ?_
  rw [getElem?_cons_turn server servers (mem_turns hmem).1]

theorem turned_cons {d : ℕ} {queue rest : List Datagram} {b : Datagram}
    (h : queue ++ arrivals d = b :: rest) (server : Octets) (servers : List Octets)
    (a : Datagram) :
    Turned arrivals id (server :: servers) d queue a ↔
      (a = b ∧ Matching id server a) ∨ Turned arrivals id servers (d + 1) rest a := by
  unfold Turned
  rw [List.length_cons, turns_backlog_cons h]
  constructor
  · intro h
    obtain ⟨t, s, hmem, hs, hmatch⟩ := h
    rcases List.mem_cons.mp hmem with heq | hmem
    · obtain ⟨rfl, rfl⟩ := Prod.mk.inj heq
      obtain rfl : server = s := by simpa using hs
      exact Or.inl ⟨rfl, hmatch⟩
    · rw [getElem?_cons_turn server servers (mem_turns hmem).1] at hs
      exact Or.inr ⟨t, s, hmem, hs, hmatch⟩
  · intro h
    rcases h with ⟨rfl, hmatch⟩ | ⟨t, s, hmem, hs, hmatch⟩
    · exact ⟨d, server, List.mem_cons_self, by simp, hmatch⟩
    · rw [← getElem?_cons_turn server servers (mem_turns hmem).1] at hs
      exact ⟨t, s, List.mem_cons_of_mem _ hmem, hs, hmatch⟩

theorem slot_fifo_nil (hq : qlen ≤ qbuf.len) {d : ℕ} {queue : List Datagram} {log : List _}
    (h : queue ++ arrivals d = []) (server : Octets) :
    ∃ log', slot (fifo random sock arrivals) sock qbuf qlen id server ⟨⟨d, queue⟩, log⟩ =
      (.ok none, ⟨⟨d + 1, []⟩, log'⟩) := by
  have hpoll : fifo random sock arrivals (.poll sock pollIn responseTimeoutMs) ⟨d, queue⟩ =
      (.ok (0 : ℕ), ⟨d + 1, []⟩) := by
    simp [fifo, h]
  exact slot_of_timeout hq rfl hpoll

theorem slot_fifo_cons (hq : qlen ≤ qbuf.len) {d : ℕ} {queue rest : List Datagram} {log : List _}
    {a : Datagram} (h : queue ++ arrivals d = a :: rest) (server : Octets) :
    ∃ log', slot (fifo random sock arrivals) sock qbuf qlen id server ⟨⟨d, queue⟩, log⟩ =
      (.ok (if Matching id server a then some (rbuf a, received a) else none),
        ⟨⟨d + 1, rest⟩, log'⟩) := by
  have hpoll : fifo random sock arrivals (.poll sock pollIn responseTimeoutMs) ⟨d, queue⟩ =
      (.ok (1 : ℕ), ⟨d + 1, a :: rest⟩) := by
    simp [fifo, h]
  exact slot_of_datagram hq rfl hpoll Nat.one_ne_zero rfl

variable (random sock arrivals id) in
theorem firstSome_fifo (hq : qlen ≤ qbuf.len) (servers : List Octets) (d : ℕ)
    (queue : List Datagram) (log : List _) :
    (∃ a, Turned arrivals id servers d queue a ∧
        ∃ w, Sys.firstSome (slot (fifo random sock arrivals) sock qbuf qlen id) servers
          ⟨⟨d, queue⟩, log⟩ = (.ok (some (rbuf a, received a)), w)) ∨
      (∀ a, ¬ Turned arrivals id servers d queue a) ∧
        ∃ w, Sys.firstSome (slot (fifo random sock arrivals) sock qbuf qlen id) servers
          ⟨⟨d, queue⟩, log⟩ = (.ok none, w) := by
  induction servers generalizing d queue log with
  | nil =>
    refine Or.inr ⟨?_, _, rfl⟩
    intro a h
    obtain ⟨t, server, -, hs, -⟩ := h
    simp at hs
  | cons server servers ih =>
    cases hfront : queue ++ arrivals d with
    | nil =>
      obtain ⟨log', hslot⟩ : ∃ log', slot (fifo random sock arrivals) sock qbuf qlen id server
          ⟨⟨d, queue⟩, log⟩ = (.ok none, ⟨⟨d + 1, []⟩, log'⟩) := slot_fifo_nil hq hfront server
      rw [Sys.firstSome_cons_none hslot]
      simp only [turned_nil hfront]
      exact ih (d + 1) [] log'
    | cons b rest =>
      obtain ⟨log', hslot⟩ : ∃ log', slot (fifo random sock arrivals) sock qbuf qlen id server
          ⟨⟨d, queue⟩, log⟩ = (.ok (if Matching id server b then some (rbuf b, received b) else none),
            ⟨⟨d + 1, rest⟩, log'⟩) := slot_fifo_cons hq hfront server
      simp only [turned_cons hfront]
      by_cases hb : Matching id server b
      · rw [if_pos hb] at hslot
        exact Or.inl ⟨b, Or.inl ⟨rfl, hb⟩, _, Sys.firstSome_cons_some hslot⟩
      · rw [if_neg hb] at hslot
        rw [Sys.firstSome_cons_none hslot]
        rcases ih (d + 1) rest log' with ⟨a, ha, hrun⟩ | ⟨hnone, hrun⟩
        · exact Or.inl ⟨a, Or.inr ha, hrun⟩
        · refine Or.inr ⟨fun a ha => ?_, hrun⟩
          rcases ha with ⟨rfl, ha⟩ | ha
          · exact hb ha
          · exact hnone a ha

end Slots

theorem queryServers_fifo {random : UInt8 × UInt8} (sock : Fd) (arrivals : ℕ → List Datagram)
    (ns : Nameservers) {hostname : List UInt8} {qtype : UInt16} {q : Slice × ℕ}
    (hbuild : buildQuery emptyQbuf (u16FromBe random.1 random.2) hostname qtype = .ok q) :
    let id := u16FromBe random.1 random.2
    let out := (queryServers (fifo random sock arrivals) ns hostname qtype ⟨⟨0, []⟩, []⟩).1
    (∃ a, Turned arrivals id ns.slots 0 [] a ∧ out = .ok (rbuf a, received a)) ∨
      (∀ a, ¬ Turned arrivals id ns.slots 0 [] a) ∧ out = .err .ETIMEDOUT := by
  intro id out
  obtain ⟨qbuf, qlen⟩ := q
  obtain ⟨log, hout⟩ : ∃ log, out =
      (rounds (fifo random sock arrivals) sock qbuf qlen id ns.active ⟨⟨0, []⟩, log⟩).1 :=
    queryServers_eq_rounds rfl hbuild rfl
  rw [rounds_eq, ← Nameservers.slots] at hout
  rcases firstSome_fifo random sock arrivals id (buildQuery_le hbuild) ns.slots 0 [] log with
    ⟨a, ha, w, hrun⟩ | ⟨hnone, w, hrun⟩
  · refine Or.inl ⟨a, ha, ?_⟩
    rw [hout, Sys.bind_of_ok hrun]
    rfl
  · refine Or.inr ⟨hnone, ?_⟩
    rw [hout, Sys.bind_of_ok hrun]
    rfl

theorem turnMatches_iff {ns : Nameservers} {id : UInt16} {arrivals : ℕ → List Datagram} :
    TurnMatches ns id arrivals ↔ ∃ a, Turned arrivals id ns.slots 0 [] a := by
  constructor
  · intro h
    obtain ⟨t, server, a, h⟩ := h
    exact ⟨a, t, server, h⟩
  · intro h
    obtain ⟨a, t, server, h⟩ := h
    exact ⟨t, server, a, h⟩

theorem returnsReply_of_turned {ns : Nameservers} {id : UInt16} {arrivals : ℕ → List Datagram}
    {a : Datagram} (h : Turned arrivals id ns.slots 0 [] a) :
    ReturnsReply ns id arrivals (.ok (rbuf a, received a)) := by
  obtain ⟨t, server, hturn, hserver, hmatch⟩ := h
  obtain ⟨-, s, hle, hmem⟩ := mem_turns hturn
  exact ⟨t, server, a, hserver, ⟨s, hle, (mem_upcoming hmem).2⟩, hmatch, rfl⟩

/-- With a queue for a socket and no failing call, a reply that arrives in its
window is found, or, what is the same, a timeout means that there was none,
exactly when no such reply arrives at all or some datagram matches the server of
the slot in which its turn comes. -/
theorem reply_found_iff (random : UInt8 × UInt8) (sock : Fd) (arrivals : ℕ → List Datagram)
    (ns : Nameservers) {hostname : List UInt8} {qtype : UInt16} {q : Slice × ℕ}
    (hbuild : buildQuery emptyQbuf (u16FromBe random.1 random.2) hostname qtype = .ok q) :
    let id := u16FromBe random.1 random.2
    let out := (queryServers (fifo random sock arrivals) ns hostname qtype ⟨⟨0, []⟩, []⟩).1
    ((ReplyInWindow ns id arrivals → ReturnsReply ns id arrivals out) ↔
        ¬ ReplyInWindow ns id arrivals ∨ TurnMatches ns id arrivals) ∧
      ((out = .err .ETIMEDOUT → ¬ ReplyInWindow ns id arrivals) ↔
        ¬ ReplyInWindow ns id arrivals ∨ TurnMatches ns id arrivals) := by
  intro id out
  rw [turnMatches_iff]
  have hcases : (∃ a, Turned arrivals id ns.slots 0 [] a ∧ out = .ok (rbuf a, received a)) ∨
      (∀ a, ¬ Turned arrivals id ns.slots 0 [] a) ∧ out = .err .ETIMEDOUT :=
    queryServers_fifo sock arrivals ns hbuild
  rcases hcases with ⟨a, ha, hout⟩ | ⟨hnone, hout⟩
  · have hreply : ReturnsReply ns id arrivals out := hout ▸ returnsReply_of_turned ha
    have htimeout : out ≠ .err .ETIMEDOUT := fun h => by
      rw [hout] at h
      cases h
    exact ⟨iff_of_true (fun _ => hreply) (Or.inr ⟨a, ha⟩),
      iff_of_true (fun h => absurd h htimeout) (Or.inr ⟨a, ha⟩)⟩
  · have hreply : ¬ ReturnsReply ns id arrivals out := by
      intro h
      obtain ⟨t, server, d, -, -, -, hok⟩ := h
      rw [hout] at hok
      cases hok
    have hturn : ¬ ∃ a, Turned arrivals id ns.slots 0 [] a := fun ⟨a, ha⟩ => hnone a ha
    constructor
    · rw [or_iff_left hturn]
      exact ⟨fun h hw => hreply (h hw), fun h hw => absurd hw h⟩
    · rw [or_iff_left hturn]
      exact ⟨fun h => h hout, fun h _ => h⟩

def goodReply : Datagram := ⟨.new resolver 53, cannedResponse.bytes⟩

def staleReply : Datagram := ⟨.new resolver 53, cannedResponse.bytes.set 0 0x99⟩

def firstSlot (ds : List Datagram) : ℕ → List Datagram
  | 0 => ds
  | _ + 1 => []

theorem reply_found_oneServer :
    ReturnsReply oneServer 0x1234 (firstSlot [staleReply, goodReply])
      (queryServers (fifo (0x12, 0x34) 3 (firstSlot [staleReply, goodReply])) oneServer aIo qtypeA
        ⟨⟨0, []⟩, []⟩).1 := by
  obtain ⟨q, hq, -⟩ := map_eq_ok.mp buildQuery_aIo
  have hturn : TurnMatches oneServer 0x1234 (firstSlot [staleReply, goodReply]) :=
    ⟨1, resolver, goodReply, by decide, by decide, by decide⟩
  have hwindow : ReplyInWindow oneServer 0x1234 (firstSlot [staleReply, goodReply]) :=
    ⟨0, resolver, goodReply, by decide, by decide, by decide⟩
  exact (reply_found_iff (0x12, 0x34) 3 _ oneServer hq).1.mpr (Or.inr hturn) hwindow

theorem reply_lost_twoServers :
    ReplyInWindow twoServers 0x1234 (firstSlot [staleReply, goodReply]) ∧
      ¬ ReturnsReply twoServers 0x1234 (firstSlot [staleReply, goodReply])
        (queryServers (fifo (0x12, 0x34) 3 (firstSlot [staleReply, goodReply])) twoServers aIo qtypeA
          ⟨⟨0, []⟩, []⟩).1 ∧
      (queryServers (fifo (0x12, 0x34) 3 (firstSlot [staleReply, goodReply])) twoServers aIo qtypeA
          ⟨⟨0, []⟩, []⟩).1.map Prod.snd = .err .ETIMEDOUT := by
  have hout : (queryServers (fifo (0x12, 0x34) 3 (firstSlot [staleReply, goodReply])) twoServers aIo
      qtypeA ⟨⟨0, []⟩, []⟩).1.map Prod.snd = .err .ETIMEDOUT := by decide +kernel
  refine ⟨⟨0, resolver, goodReply, by decide, by decide, by decide⟩, ?_, hout⟩
  intro h
  obtain ⟨t, server, d, -, -, -, hok⟩ := h
  rw [hok] at hout
  cases hout

end RustyLibc.Dns
