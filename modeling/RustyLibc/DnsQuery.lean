import RustyLibc.HostCalls
import RustyLibc.DnsWire

/-!
# The query side of the stub resolver (`dns.rs`, `socket.rs`)

`buildQuery` writes a query into a buffer, `put` being its closure of that name,
and `queryServers` is the exchange with the nameservers: the text of `query`
after `read_nameservers`. Inside it `slot` is one pass of the inner loop and
`check` the tests on the datagram it received, of which `rbuf` is the array of
512 bytes and `received` the count that `recvfrom` returned. The host stands for
the kernel. A hostname is the list of its UTF-8 bytes, where a `.` is never part
of a longer character.
-/

namespace RustyLibc.Dns
open Outcome ByteOrder HostCalls

def put (st : Slice × ℕ) (bs : List UInt8) : Outcome Errno (Slice × ℕ) := do
  let stop ← uadd st.2 bs.length
  if stop > st.1.len then .err .EINVAL
  else do
    let buf ← st.1.copyAt st.2 stop bs
    pure (buf, stop)

def putLabel (st : Slice × ℕ) (label : List UInt8) : Outcome Errno (Slice × ℕ) :=
  if label = [] ∨ label.length > 63 then .err .EINVAL
  else do
    let st ← put st [UInt8.ofNat label.length]
    put st label

def dot : UInt8 := 0x2E

def buildQuery (buf : Slice) (id : UInt16) (hostname : List UInt8) (qtype : UInt16) :
    Outcome Errno (Slice × ℕ) :=
  if hostname = [] then .err .EINVAL
  else do
    let st ← put (buf, 0) (u16ToBe id)
    let st ← put st (u16ToBe 0x0100)
    let st ← put st (u16ToBe 1)
    let st ← put st (u16ToBe 0)
    let st ← put st (u16ToBe 0)
    let st ← put st (u16ToBe 0)
    let st ← (hostname.splitOn dot).foldlM putLabel st
    let st ← put st [0]
    let st ← put st (u16ToBe qtype)
    put st (u16ToBe qclassIn)

abbrev Octets := Vector UInt8 4

abbrev Fd := ℤ

def afInet : UInt16 := 2
def sockDgram : ℤ := 2
def pollIn : UInt16 := 1

/-- An IPv4 socket address. The port is kept as its two bytes in memory, which
are in network order; the padding is not read. -/
structure SockAddrIn where
  family : UInt16
  port : UInt8 × UInt8
  addr : Octets
  deriving DecidableEq

namespace SockAddrIn

def new (octets : Octets) (port : UInt16) : SockAddrIn :=
  ⟨afInet, (UInt8.ofNat (port.toNat / 256), UInt8.ofNat port.toNat), octets⟩

def octets (a : SockAddrIn) : Octets := a.addr

def hostPort (a : SockAddrIn) : UInt16 := u16FromBe a.port.1 a.port.2

end SockAddrIn

structure Datagram where
  source : SockAddrIn
  payload : List UInt8
  deriving DecidableEq

inductive Request where
  | getrandom (len : ℕ)
  | socket (family : UInt16) (kind protocol : ℤ)
  | sendto (fd : Fd) (bytes : List UInt8) (dest : SockAddrIn)
  | poll (fd : Fd) (events : UInt16) (timeout : ℤ)
  | recvfrom (fd : Fd) (len : ℕ)
  | close (fd : Fd)
  deriving DecidableEq

/-- What a successful call hands over: the bytes written, the descriptor, the
number of bytes sent, the number of ready descriptors, the datagram taken from
the queue. -/
abbrev Reply : Request → Type
  | .getrandom _ => List UInt8
  | .socket _ _ _ => Fd
  | .sendto _ _ _ => ℕ
  | .poll _ _ _ => ℕ
  | .recvfrom _ _ => Datagram
  | .close _ => Unit

variable {σ : Type}

abbrev Net (σ : Type) := Host Reply Errno σ

abbrev Query (σ α : Type) := Sys Reply Errno σ α

/-- A zeroed array of `len` bytes after the kernel has written `bs` to its
front; what does not fit is dropped. -/
def filled (len : ℕ) (bs : List UInt8) : List UInt8 :=
  bs.take len ++ List.replicate (len - bs.length) 0

@[simp] theorem length_filled (len : ℕ) (bs : List UInt8) : (filled len bs).length = len := by
  simp only [filled, List.length_append, List.length_take, List.length_replicate]
  omega

def rbuf (d : Datagram) : Slice := ⟨filled 512 d.payload, by simp⟩

def received (d : Datagram) : ℕ := min d.payload.length 512

def responseTimeoutMs : ℤ := 2000
def maxNameservers : ℕ := 3

/-- The result of `read_nameservers`: an array of three addresses of which the
first `count` are in use, at least one. -/
structure Nameservers where
  servers : Vector Octets maxNameservers
  count : ℕ
  count_pos : 0 < count
  count_le : count ≤ maxNameservers

def Nameservers.active (ns : Nameservers) : List Octets := ns.servers.toList.take ns.count

def check (id : UInt16) (server : Octets) (d : Datagram) :
    Outcome Errno (Option (Slice × ℕ)) :=
  if d.source.octets ≠ server ∨ received d < 12 then pure none
  else do
    let hi ← (rbuf d).index 0
    let lo ← (rbuf d).index 1
    if u16FromBe hi lo ≠ id then pure none else pure (some (rbuf d, received d))

def slot (net : Net σ) (sock : Fd) (qbuf : Slice) (qlen : ℕ) (id : UInt16) (server : Octets) :
    Query σ (Option (Slice × ℕ)) := do
  let q ← Sys.lift (qbuf.range 0 qlen)
  match ← Sys.attempt net (.sendto sock q (.new server 53)) with
  | .error _ => pure none
  | .ok _ => do
    let ready : ℕ ← Sys.call net (.poll sock pollIn responseTimeoutMs)
    if ready = 0 then pure none
    else do
      match ← Sys.attempt net (.recvfrom sock 512) with
      | .error _ => pure none
      | .ok d => Sys.lift (check id server d)

def rounds (net : Net σ) (sock : Fd) (qbuf : Slice) (qlen : ℕ) (id : UInt16)
    (servers : List Octets) : Query σ (Slice × ℕ) := do
  let round := Sys.firstSome (slot net sock qbuf qlen id) servers
  match ← Sys.firstSome (fun _ => round) (List.range 2) with
  | some r => pure r
  | none => Sys.lift (.err .ETIMEDOUT)

def emptyQbuf : Slice := ⟨filled 256 [], by simp⟩

def queryServers (net : Net σ) (ns : Nameservers) (hostname : List UInt8) (qtype : UInt16) :
    Query σ (Slice × ℕ) := do
  let random : List UInt8 ← Sys.call net (.getrandom 2)
  let hi ← Sys.lift (Slice.index ⟨filled 2 random, by simp⟩ 0)
  let lo ← Sys.lift (Slice.index ⟨filled 2 random, by simp⟩ 1)
  let id := u16FromBe hi lo
  let (qbuf, qlen) ← Sys.lift (buildQuery emptyQbuf id hostname qtype)
  let sock : Fd ← Sys.call net (.socket afInet sockDgram 0)
  let result ← Sys.capture (rounds net sock qbuf qlen id ns.active)
  let _ ← Sys.attempt net (.close sock)
  Sys.ofExcept result

def answered {ρ α : Type} {Rep : ρ → Type} (query : Sys Rep Errno σ (Slice × ℕ))
    (parse : Slice → ℕ → Outcome Errno α) : Sys Rep Errno σ α := do
  let (buf, n) ← query
  Sys.lift (parse buf n)

def resolveA (net : Net σ) (ns : Nameservers) (hostname : List UInt8) : Query σ AddrList4 :=
  answered (queryServers net ns hostname qtypeA) parseAnswersA

def resolveAaaa (net : Net σ) (ns : Nameservers) (hostname : List UInt8) : Query σ AddrList6 :=
  answered (queryServers net ns hostname qtypeAaaa) parseAnswersAaaa

theorem answered_apply {ρ α : Type} {Rep : ρ → Type} (query : Sys Rep Errno σ (Slice × ℕ))
    (parse : Slice → ℕ → Outcome Errno α) (w : World Rep Errno σ) :
    answered query parse w = ((query w).1 >>= fun r => parse r.1 r.2, (query w).2) :=
  Sys.bind_lift _ _ _

theorem put_le {st st' : Slice × ℕ} {bs : List UInt8} (h : put st bs = .ok st') :
    st'.2 ≤ st'.1.len := by
  simp only [put, bind_eq_ok] at h
  obtain ⟨stop, -, h⟩ := h
  split_ifs at h with hstop
  simp only [bind_eq_ok] at h
  obtain ⟨buf, hbuf, h⟩ := h
  obtain rfl := Outcome.ok.inj h
  have hlen := Slice.len_copyAt hbuf
  dsimp only
  omega

theorem buildQuery_le {buf qbuf : Slice} {id : UInt16} {hostname : List UInt8} {qtype : UInt16}
    {qlen : ℕ} (h : buildQuery buf id hostname qtype = .ok (qbuf, qlen)) : qlen ≤ qbuf.len := by
  unfold buildQuery at h
  split_ifs at h
  simp only [bind_eq_ok] at h
  obtain ⟨_, -, _, -, _, -, _, -, _, -, _, -, _, -, _, -, _, -, hlast⟩ := h
  exact put_le hlast

def messageId : List UInt8 → Option UInt16
  | hi :: lo :: _ => some (u16FromBe hi lo)
  | _ => none

/-- A reply from `server` to the query `id`, as far as `query` looks. -/
def Matching (id : UInt16) (server : Octets) (d : Datagram) : Prop :=
  d.source.octets = server ∧ 12 ≤ d.payload.length ∧ messageId d.payload = some id

instance (id : UInt16) (server : Octets) (d : Datagram) : Decidable (Matching id server d) :=
  inferInstanceAs (Decidable (_ ∧ _ ∧ _))

theorem check_eq (id : UInt16) (server : Octets) (d : Datagram) :
    check id server d =
      .ok (if Matching id server d then some (rbuf d, received d) else none) := by
  unfold check
  by_cases htests : d.source.octets ≠ server ∨ received d < 12
  · have hno : ¬ Matching id server d := by
      intro h
      obtain ⟨hsource, hlen, -⟩ := h
      rcases htests with h | h
      · exact h hsource
      · unfold received at h
        omega
    rw [if_pos htests, if_neg hno]
    rfl
  · have hsource : d.source.octets = server := by
      by_contra hne
      exact htests (Or.inl hne)
    have hlen : 12 ≤ d.payload.length := by
      unfold received at htests
      omega
    obtain ⟨hi, lo, rest, hpay⟩ : ∃ hi lo rest, d.payload = hi :: lo :: rest := by
      match hd : d.payload with
      | [] => simp [hd] at hlen
      | [_] => simp [hd] at hlen
      | hi :: lo :: rest => exact ⟨hi, lo, rest, rfl⟩
    have hhi : (rbuf d).bytes[0]? = some hi := by simp [rbuf, filled, hpay]
    have hlo : (rbuf d).bytes[1]? = some lo := by simp [rbuf, filled, hpay]
    rw [if_neg htests, Slice.index_of_getElem? hhi, Slice.index_of_getElem? hlo]
    by_cases hid : u16FromBe hi lo = id
    · have hyes : Matching id server d := ⟨hsource, hlen, by simp [messageId, hpay, hid]⟩
      simp [hid, if_pos hyes]
    · have hno : ¬ Matching id server d := by
        intro h
        obtain ⟨-, -, hmsg⟩ := h
        simp [messageId, hpay, hid] at hmsg
      simp [hid, if_neg hno]

section Rounds

variable {net : Net σ} {sock : Fd} {qbuf : Slice} {qlen : ℕ} {id : UInt16}

theorem slot_of_timeout (hq : qlen ≤ qbuf.len) {server : Octets} {w : World Reply Errno σ}
    {s₁ s₂ : σ} {sent : ℕ}
    (hsend : net (.sendto sock (qbuf.bytes.take qlen) (.new server 53)) w.state = (.ok sent, s₁))
    (hpoll : net (.poll sock pollIn responseTimeoutMs) s₁ = (.ok (0 : ℕ), s₂)) :
    ∃ trace, slot net sock qbuf qlen id server w = (.ok none, ⟨s₂, trace⟩) := by
  rw [slot, Slice.range_zero hq, Sys.bind_of_ok (Sys.lift_apply _ w),
    Sys.bind_of_ok (Sys.attempt_of_reply hsend)]
  dsimp only
  rw [Sys.bind_of_ok (Sys.call_of_reply hpoll), if_pos rfl]
  exact ⟨_, rfl⟩

theorem slot_of_datagram (hq : qlen ≤ qbuf.len) {server : Octets} {w : World Reply Errno σ}
    {s₁ s₂ s₃ : σ} {sent ready : ℕ} {d : Datagram}
    (hsend : net (.sendto sock (qbuf.bytes.take qlen) (.new server 53)) w.state = (.ok sent, s₁))
    (hpoll : net (.poll sock pollIn responseTimeoutMs) s₁ = (.ok ready, s₂)) (hready : ready ≠ 0)
    (hrecv : net (.recvfrom sock 512) s₂ = (.ok d, s₃)) :
    ∃ trace, slot net sock qbuf qlen id server w =
      (.ok (if Matching id server d then some (rbuf d, received d) else none), ⟨s₃, trace⟩) := by
  rw [slot, Slice.range_zero hq, Sys.bind_of_ok (Sys.lift_apply _ w),
    Sys.bind_of_ok (Sys.attempt_of_reply hsend)]
  dsimp only
  rw [Sys.bind_of_ok (Sys.call_of_reply hpoll), if_neg hready,
    Sys.bind_of_ok (Sys.attempt_of_reply hrecv)]
  dsimp only
  rw [Sys.lift_apply, check_eq]
  exact ⟨_, rfl⟩

/-- Everything a pass can do: it is over at the first of its three calls that
fails or finds nothing, and only the error of `poll` is returned. -/
theorem slot_cases (hq : qlen ≤ qbuf.len) {server : Octets} {w v : World Reply Errno σ}
    {r : Outcome Errno (Option (Slice × ℕ))} (h : slot net sock qbuf qlen id server w = (r, v)) :
    (∃ e, r = .ok none ∧ v.trace = w.trace ++
      [⟨.sendto sock (qbuf.bytes.take qlen) (.new server 53), .error e⟩]) ∨
    ∃ sent, (∃ e, r = .err e ∧ v.trace = w.trace ++
        [⟨.sendto sock (qbuf.bytes.take qlen) (.new server 53), .ok sent⟩,
          ⟨.poll sock pollIn responseTimeoutMs, .error e⟩]) ∨
      (r = .ok none ∧ v.trace = w.trace ++
        [⟨.sendto sock (qbuf.bytes.take qlen) (.new server 53), .ok sent⟩,
          ⟨.poll sock pollIn responseTimeoutMs, .ok (0 : ℕ)⟩]) ∨
      ∃ ready : ℕ, (∃ e, r = .ok none ∧ v.trace = w.trace ++
          [⟨.sendto sock (qbuf.bytes.take qlen) (.new server 53), .ok sent⟩,
            ⟨.poll sock pollIn responseTimeoutMs, .ok ready⟩, ⟨.recvfrom sock 512, .error e⟩]) ∨
        ∃ d, r = .ok (if Matching id server d then some (rbuf d, received d) else none) ∧
          v.trace = w.trace ++
            [⟨.sendto sock (qbuf.bytes.take qlen) (.new server 53), .ok sent⟩,
              ⟨.poll sock pollIn responseTimeoutMs, .ok ready⟩, ⟨.recvfrom sock 512, .ok d⟩] := by
  rw [slot, Slice.range_zero hq, Sys.bind_of_ok (Sys.lift_apply _ w)] at h
  rcases hsend : net (.sendto sock (qbuf.bytes.take qlen) (.new server 53)) w.state with ⟨reply, s₁⟩
  rw [Sys.bind_of_ok (Sys.attempt_of_reply hsend)] at h
  cases reply with
  | error e =>
    obtain ⟨rfl, rfl⟩ := Prod.mk.inj h
    exact Or.inl ⟨e, rfl, rfl⟩
  | ok sent =>
    refine Or.inr ⟨sent, ?_⟩
    dsimp only at h
    rcases hpoll : net (.poll sock pollIn responseTimeoutMs) s₁ with ⟨reply, s₂⟩
    cases reply with
    | error e =>
      rw [Sys.bind_of_err (Sys.call_of_error hpoll)] at h
      obtain ⟨rfl, rfl⟩ := Prod.mk.inj h
      exact Or.inl ⟨e, rfl, List.append_assoc _ _ _⟩
    | ok ready =>
      rw [Sys.bind_of_ok (Sys.call_of_reply hpoll)] at h
      refine Or.inr ?_
      by_cases hready : ready = (0 : ℕ)
      · rw [if_pos hready] at h
        obtain ⟨rfl, rfl⟩ := Prod.mk.inj h
        exact Or.inl ⟨rfl, by rw [hready]; exact List.append_assoc _ _ _⟩
      · refine Or.inr ⟨ready, ?_⟩
        rw [if_neg hready] at h
        rcases hrecv : net (.recvfrom sock 512) s₂ with ⟨reply, s₃⟩
        rw [Sys.bind_of_ok (Sys.attempt_of_reply hrecv)] at h
        cases reply with
        | error e =>
          obtain ⟨rfl, rfl⟩ := Prod.mk.inj h
          exact Or.inl ⟨e, rfl, by simp⟩
        | ok d =>
          dsimp only at h
          rw [Sys.lift_apply, check_eq] at h
          obtain ⟨rfl, rfl⟩ := Prod.mk.inj h
          exact Or.inr ⟨d, rfl, by simp⟩

theorem rounds_eq (servers : List Octets) :
    rounds net sock qbuf qlen id servers =
      Sys.firstSome (slot net sock qbuf qlen id) (servers ++ servers) >>= fun
        | some r => pure r
        | none => Sys.lift (.err .ETIMEDOUT) := by
  have htwice : (List.range 2).flatMap (fun _ => servers) = servers ++ servers := by
    simp [List.range_succ]
  rw [← htwice, ← Sys.firstSome_flatMap]
  rfl

theorem queryServers_eq_rounds {ns : Nameservers} {hostname : List UInt8} {qtype : UInt16}
    {w : World Reply Errno σ} {s₁ s₂ : σ} {hi lo : UInt8}
    (hrandom : net (.getrandom 2) w.state = (.ok [hi, lo], s₁))
    (hbuild : buildQuery emptyQbuf (u16FromBe hi lo) hostname qtype = .ok (qbuf, qlen))
    (hsock : net (.socket afInet sockDgram 0) s₁ = (.ok sock, s₂)) :
    ∃ log, (queryServers net ns hostname qtype w).1 =
      (rounds net sock qbuf qlen (u16FromBe hi lo) ns.active ⟨s₂, log⟩).1 := by
  have hhi : (⟨filled 2 [hi, lo], by simp⟩ : Slice).index 0 = (.ok hi : Outcome Errno UInt8) := rfl
  have hlo : (⟨filled 2 [hi, lo], by simp⟩ : Slice).index 1 = (.ok lo : Outcome Errno UInt8) := rfl
  rw [queryServers, Sys.bind_of_ok (Sys.call_of_reply hrandom), hhi,
    Sys.bind_of_ok (Sys.lift_apply _ _), hlo, Sys.bind_of_ok (Sys.lift_apply _ _), hbuild,
    Sys.bind_of_ok (Sys.lift_apply _ _)]
  dsimp only
  rw [Sys.bind_of_ok (Sys.call_of_reply hsock), Sys.fst_capture_attempt]
  exact ⟨_, rfl⟩

end Rounds

def resolver : Octets := #v[10, 0, 0, 1]

def oneServer : Nameservers where
  servers := #v[resolver, #v[0, 0, 0, 0], #v[0, 0, 0, 0]]
  count := 1
  count_pos := by decide
  count_le := by decide

def twoServers : Nameservers where
  servers := #v[resolver, #v[10, 0, 0, 2], #v[0, 0, 0, 0]]
  count := 2
  count_pos := by decide
  count_le := by decide

def aIo : List UInt8 := [97, 0x2E, 105, 111]

def aIoQuery : List UInt8 :=
  [0x12, 0x34, 0x01, 0x00, 0x00, 0x01, 0x00, 0x00, 0x00, 0x00, 0x00, 0x00,
    0x01, 97, 0x02, 105, 111, 0x00, 0x00, 0x01, 0x00, 0x01]

theorem buildQuery_aIo :
    (buildQuery emptyQbuf 0x1234 aIo qtypeA).map (fun q => q.1.bytes.take q.2) = .ok aIoQuery := by
  decide +kernel

end RustyLibc.Dns
