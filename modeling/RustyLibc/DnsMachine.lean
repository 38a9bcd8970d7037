import RustyLibc.DnsNetwork
import RustyLibc.DnsResolve
import RustyLibc.HostSimulation

/-!
# A machine that resolves names (`dns.rs`)

The whole of `resolve_a` and `resolve_aaaa` on one machine: a configuration file,
read in pieces of any size, and a network that loses queries or multiplies
replies but is never late. `read_nameservers` sees the file only and the exchange
with the nameservers sees the network only, so what is known of either of them
alone holds for a machine that has both.
-/

namespace RustyLibc.Resolver
open HostCalls Outcome Text
open Dns hiding Reply

variable {σ σ' : Type} {R : σ → σ' → Prop}

theorem readStep_mirrors {kernel : Fd.Kernel σ} {kernel' : Fd.Kernel σ'}
    (h : Alike R kernel kernel') (f : Fd.RawFd) (st : Slice × ℕ) :
    Mirrors R (readStep kernel f st) (readStep kernel' f st) := by
  refine (Mirrors.lift _).bind fun tail => (Mirrors.attempt h _).bind fun reply => ?_
  cases reply with
  | error e => exact (Mirrors.attempt h _).bind fun _ => Mirrors.lift _
  | ok bs =>
    refine (Mirrors.lift _).bind fun total => ?_
    split_ifs
    · exact Mirrors.pure _
    · exact Mirrors.pure _

theorem readNameservers_mirrors {kernel : Fd.Kernel σ} {kernel' : Fd.Kernel σ'}
    (h : Alike R kernel kernel') :
    Mirrors R (readNameservers kernel) (readNameservers kernel') := by
  refine (Mirrors.call h _).bind fun f => ?_
  refine (Mirrors.loop (readStep_mirrors h f) _ _).bind fun st => ?_
  refine (Mirrors.attempt h _).bind fun _ => (Mirrors.lift _).bind fun bytes => ?_
  cases fromUtf8 bytes with
  | none => exact Mirrors.lift _
  | some text => exact Mirrors.lift _

theorem slot_mirrors {net : Net σ} {net' : Net σ'} (h : Alike R net net') (sock : Dns.Fd)
    (qbuf : Slice) (qlen : ℕ) (id : UInt16) (server : Octets) :
    Mirrors R (slot net sock qbuf qlen id server) (slot net' sock qbuf qlen id server) := by
  refine (Mirrors.lift _).bind fun q => (Mirrors.attempt h _).bind fun sent => ?_
  cases sent with
  | error e => exact Mirrors.pure none
  | ok n =>
    refine (Mirrors.call h _).bind fun ready => ?_
    split_ifs
    · exact Mirrors.pure none
    · refine (Mirrors.attempt h _).bind fun got => ?_
      cases got with
      | error e => exact Mirrors.pure none
      | ok d => exact Mirrors.lift _

theorem rounds_mirrors {net : Net σ} {net' : Net σ'} (h : Alike R net net') (sock : Dns.Fd)
    (qbuf : Slice) (qlen : ℕ) (id : UInt16) (servers : List Octets) :
    Mirrors R (rounds net sock qbuf qlen id servers) (rounds net' sock qbuf qlen id servers) := by
  have hround := Mirrors.firstSome (slot_mirrors h sock qbuf qlen id) servers
  refine (Mirrors.firstSome (fun _ => hround) (List.range 2)).bind fun found => ?_
  cases found with
  | some r => exact Mirrors.pure r
  | none => exact Mirrors.lift _

theorem queryServers_mirrors {net : Net σ} {net' : Net σ'} (h : Alike R net net')
    (ns : Nameservers) (hostname : List UInt8) (qtype : UInt16) :
    Mirrors R (queryServers net ns hostname qtype) (queryServers net' ns hostname qtype) := by
  refine (Mirrors.call h _).bind fun random => (Mirrors.lift _).bind fun hi => ?_
  refine (Mirrors.lift _).bind fun lo => (Mirrors.lift _).bind fun built => ?_
  refine (Mirrors.call h _).bind fun sock => ?_
  refine (Mirrors.capture (rounds_mirrors h sock _ _ _ _)).bind fun result => ?_
  exact (Mirrors.attempt h _).bind fun _ => Mirrors.ofExcept result

def machine {φ ω : Type} (files : Fd.Kernel φ) (net : Net ω) : Kernel (φ × ω)
  | .inl r, s => ((files r s.1).1, ((files r s.1).2, s.2))
  | .inr r, s => ((net r s.2).1, (s.1, (net r s.2).2))

section Parts

variable {φ ω : Type} (files : Fd.Kernel φ) (net : Net ω)

theorem machine_left (w : ω) :
    Alike (fun s f => s = (f, w)) (Host.left (machine files net)) files := by
  rintro r s f rfl
  exact ⟨rfl, rfl⟩

theorem machine_right (f : φ) :
    Alike (fun s w => s = (f, w)) (Host.right (machine files net)) net := by
  rintro r s w rfl
  exact ⟨rfl, rfl⟩

theorem query_machine (hostname : List UInt8) (t : UInt16) (f : φ) (w : ω) :
    (query (machine files net) hostname t ⟨(f, w), []⟩).1 =
      (readNameservers files ⟨f, []⟩).1 >>= fun ns =>
        (queryServers net ns hostname t ⟨w, []⟩).1 := by
  obtain ⟨out, u, f', trace, hread, hread', rfl⟩ :=
    readNameservers_mirrors (machine_left files net w) (f, w) f [] rfl
  have hleft : (Sys.onLeft (readNameservers (Host.left (machine files net))) :
      Call (φ × ω) Nameservers) ⟨(f, w), []⟩ = (out, ⟨(f', w), trace.map Event.inl⟩) := by
    rw [Sys.onLeft, hread]
    rfl
  change (Sys.bind (Sys.onLeft _) _ _).1 = _
  rw [Sys.bind, hleft, hread']
  cases out with
  | ok ns =>
    obtain ⟨result, v, w', trace', hask, hask', -⟩ :=
      queryServers_mirrors (machine_right files net f') ns hostname t (f', w) w [] rfl
    rw [ok_bind, hask']
    dsimp only
    rw [Sys.onRight, hask]
  | err e => rfl
  | panic => rfl
  | diverge => rfl

end Parts

/-- The servers that a configuration with this text names, as far as it is read. -/
def namedServers (text : List Char) : List Octets :=
  match fromUtf8 ((utf8 text).take 4096) with
  | none => []
  | some front => (addresses front).take maxNameservers

theorem namedServers_of_fits {text : List Char} (h : (utf8 text).length ≤ 4096) :
    namedServers text = (addresses text).take maxNameservers := by
  rw [namedServers, List.take_of_length_le h, fromUtf8_utf8]

theorem configured_cases (sizes : ℕ → ℕ) (text : List Char) :
    configured sizes text = .err .EINVAL ∧ namedServers text = [] ∨
      ∃ ns, configured sizes text = .ok ns ∧ ns.active = namedServers text := by
  rw [configured_eq, namedServers]
  cases fromUtf8 ((utf8 text).take 4096) with
  | none => exact Or.inl ⟨rfl, rfl⟩
  | some front =>
    rcases active_scanText front with ⟨herr, hnone⟩ | hok
    · refine Or.inl ⟨herr, ?_⟩
      dsimp only
      rw [hnone, List.take_nil]
    · exact Or.inr hok

theorem active_ne_nil (ns : Nameservers) : ns.active ≠ [] := by
  intro hnil
  have hlen := congrArg List.length hnil
  rw [Nameservers.active, List.length_take, Vector.length_toList, List.length_nil] at hlen
  have hpos := ns.count_pos
  have hle := ns.count_le
  omega

theorem answered_machine {zone : Zone} {random : UInt8 × UInt8} {sock : Dns.Fd}
    {serve : Octets → List UInt8 → List UInt8} (hserve : Answering zone serve) (copies : ℕ → ℕ)
    {hostname : List UInt8} (hvalid : Encodable hostname) (hshort : hostname.length ≤ 238)
    (sizes : ℕ → ℕ) (text : List Char) (w : ℕ) (t : UInt16) :
    (answered (query (machine (chunked sizes) (prompt random sock serve copies)) hostname t)
        (parseAnswers w t) ⟨(⟨utf8 text, 0⟩, ⟨0, []⟩), []⟩).1.map AddrList.asSlice =
      if namedServers text = [] then .err .EINVAL
      else zone.outcome hostname t w
        (firstHeard copies 0 (namedServers text ++ namedServers text)) := by
  rw [answered_apply, query_machine, ← configured]
  rcases configured_cases sizes text with ⟨herr, hnone⟩ | ⟨ns, hok, hactive⟩
  · rw [herr, if_pos hnone]
    rfl
  · have hasked : (answered (queryServers (prompt random sock serve copies) ns hostname t)
        (parseAnswers w t) ⟨⟨0, []⟩, []⟩).1.map AddrList.asSlice = _ :=
      answered_prompt hserve hvalid hshort ns w t
    rw [answered_apply] at hasked
    rw [hok, ok_bind, if_neg (hactive ▸ active_ne_nil ns), ← hactive]
    exact hasked

def cannedServe : Octets → List UInt8 → List UInt8 := fun server q =>
  (cannedZone server [] 0).reply ((messageId q).getD 0)

theorem answering_cannedServe : Answering cannedZone cannedServe := by
  intro server id hostname qtype hvalid
  rw [cannedServe, messageId_queryBytes]
  rfl

def twoLines : List Char := "nameserver 10.0.0.1\nnameserver 10.0.0.2\n".toList

theorem namedServers_twoLines : namedServers twoLines = [#v[10, 0, 0, 1], #v[10, 0, 0, 2]] := by
  decide +kernel

end RustyLibc.Resolver
