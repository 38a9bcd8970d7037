import RustyLibc.DnsQuery
import RustyLibc.FdStreams
import RustyLibc.TextLines

/-!
# Nameservers from `/etc/resolv.conf` (`dns.rs`)

`readNameservers` reads the file into an array of 4096 bytes until the file ends
or the array is full, and takes the addresses of the `nameserver` lines of what
it has read. How the kernel cuts the file into reads does not matter. A file that
does not fit is cut at 4096 bytes wherever they end: inside a character nothing
is returned, and inside a line the piece before the cut is read as if it were the
line. `CutHarmless` says when that goes unnoticed.
-/

namespace RustyLibc.Dns
open Outcome HostCalls Text

def parseIpv4Field (out : List UInt8) (part : List Char) : Option (List UInt8) :=
  if out.length ≥ 4 then none
  else match parseU8 part with
    | none => none
    | some b => some (out ++ [b])

def parseIpv4 (s : List Char) : Option Octets :=
  match (s.splitOn '.').foldlM parseIpv4Field [] with
  | none => none
  | some out => if h : out.length = 4 then some ⟨out.toArray, by simpa using h⟩ else none

structure ServerList where
  servers : Vector Octets maxNameservers
  count : ℕ
  count_le : count ≤ maxNameservers

namespace ServerList

def empty : ServerList := ⟨Vector.replicate _ (Vector.replicate _ 0), 0, Nat.zero_le _⟩

def push (l : ServerList) (a : Octets) : ServerList :=
  if h : l.count < maxNameservers then ⟨l.servers.set l.count a h, l.count + 1, h⟩ else l

def active (l : ServerList) : List Octets := l.servers.toList.take l.count

end ServerList

def lineAddress (line : List Char) : Option Octets :=
  match stripPrefix "nameserver".toList (trim line) with
  | none => none
  | some rest => parseIpv4 (trim rest)

def scanLine (l : ServerList) (line : List Char) : ServerList :=
  match lineAddress line with
  | none => l
  | some a => l.push a

def scanText (text : List Char) : Outcome Errno Nameservers :=
  let l := (lines text).foldl scanLine .empty
  if h : l.count = 0 then .err .EINVAL
  else .ok ⟨l.servers, l.count, Nat.pos_of_ne_zero h, l.count_le⟩

variable {σ : Type}

def resolvConf : List UInt8 := utf8 "/etc/resolv.conf".toList

def emptyRaw : Slice := ⟨List.replicate 4096 0, by rw [List.length_replicate]; decide⟩

def readStep (kernel : Fd.Kernel σ) (f : Fd.RawFd) (st : Slice × ℕ) :
    Fd.Call σ (Pass (Slice × ℕ) (Slice × ℕ)) := do
  let tail ← Sys.lift (st.1.rangeFrom st.2)
  match ← Sys.attempt kernel (.read f tail.len) with
  | .error e => do
    let _ ← Sys.attempt kernel (.close f)
    Sys.lift (.err e)
  | .ok bs => do
    let raw := st.1.patch st.2 bs.val
    let total ← Sys.lift (uadd st.2 bs.val.length)
    if bs.val.length = 0 ∨ total ≥ raw.len then pure (.done (raw, total))
    else pure (.next (raw, total))

/-- `read_nameservers`. A pass that does not end the loop adds to `total`, so the
budget is never spent. -/
def readNameservers (kernel : Fd.Kernel σ) : Fd.Call σ Nameservers := do
  let f : Fd.RawFd ← Sys.call kernel (.openat Fd.atFdcwd resolvConf Fd.oRdonly 0)
  let (raw, total) ← Sys.loop (readStep kernel f) (emptyRaw.len + 1) (emptyRaw, 0)
  let _ ← Sys.attempt kernel (.close f)
  let bytes ← Sys.lift (raw.range 0 total)
  match fromUtf8 bytes with
  | none => Sys.lift (.err .EINVAL)
  | some text => Sys.lift (scanText text)

def addresses (text : List Char) : List Octets := (lines text).filterMap lineAddress

namespace ServerList

theorem active_empty : empty.active = [] := rfl

theorem length_active (l : ServerList) : l.active.length = l.count := by
  simpa [active] using l.count_le

theorem active_push (l : ServerList) (a : Octets) :
    (l.push a).active = (l.active ++ [a]).take maxNameservers := by
  by_cases h : l.count < maxNameservers
  · have hlen : l.count < (l.servers.toList.set l.count a).length := by simpa using h
    have hset : (l.servers.set l.count a h).toList = l.servers.toList.set l.count a := by
      simp [Vector.toList_set]
    have hshort : (l.active ++ [a]).length ≤ maxNameservers := by
      rw [List.length_append, l.length_active]
      exact h
    rw [List.take_of_length_le hshort, push, dif_pos h]
    simp only [active, hset]
    rw [List.take_succ_eq_append_getElem hlen, List.take_set_of_le le_rfl]
    simp
  · have hfull : l.active.length = maxNameservers := by
      have hle := l.count_le
      rw [l.length_active]
      omega
    rw [push, dif_neg h, List.take_append_of_le_length hfull.ge, List.take_of_length_le hfull.le]

end ServerList

theorem active_scanLines (ls : List (List Char)) (l : ServerList) :
    (ls.foldl scanLine l).active = (l.active ++ ls.filterMap lineAddress).take maxNameservers := by
  have hle : ∀ l : ServerList, l.active.length ≤ maxNameservers :=
    fun l => l.length_active ▸ l.count_le
  induction ls generalizing l with
  | nil => simp [List.take_of_length_le (hle l)]
  | cons line ls ih =>
    rw [List.foldl_cons, ih, scanLine]
    cases haddr : lineAddress line with
    | none => rw [List.filterMap_cons_none haddr]
    | some a =>
      rw [List.filterMap_cons_some haddr, ServerList.active_push, take_take_append,
        List.append_assoc]
      rfl

theorem active_scanText (text : List Char) :
    scanText text = .err .EINVAL ∧ addresses text = [] ∨
      ∃ ns, scanText text = .ok ns ∧ ns.active = (addresses text).take maxNameservers := by
  have hactive := active_scanLines (lines text) .empty
  rw [ServerList.active_empty, List.nil_append] at hactive
  have hlen := ServerList.length_active ((lines text).foldl scanLine .empty)
  rw [hactive] at hlen
  unfold scanText
  by_cases hzero : ((lines text).foldl scanLine .empty).count = 0
  · refine Or.inl ⟨dif_pos hzero, ?_⟩
    rw [hzero, List.length_eq_zero_iff, List.take_eq_nil_iff] at hlen
    exact hlen.resolve_left (by decide)
  · exact Or.inr ⟨_, dif_neg hzero, hactive⟩

structure FileState where
  left : List UInt8
  reads : ℕ

/-- The `i`-th read returns `sizes i` bytes, but at least one, no more than asked
for, and no more than there are. -/
def chunked (sizes : ℕ → ℕ) : Fd.Kernel FileState
  | .openat _ _ _ _, s => (.ok 3, s)
  | .read _ len, s =>
    (.ok ⟨s.left.take (min len (max 1 (sizes s.reads))),
        (List.length_take_le _ _).trans (Nat.min_le_left _ _)⟩,
      ⟨s.left.drop (min len (max 1 (sizes s.reads))), s.reads + 1⟩)
  | .write _ _, s => (.error .EINVAL, s)
  | .close _, s => (.ok (), s)

theorem len_emptyRaw : emptyRaw.len = 4096 := List.length_replicate

theorem readStep_cases (kernel : Fd.Kernel σ) (f : Fd.RawFd) {raw : Slice} {total : ℕ}
    (hroom : total < raw.len) (w : World Fd.Reply Errno σ) :
    ∃ len, len = raw.len - total ∧
      ((∃ bs s, kernel (.read f len) w.state = (.ok bs, s) ∧
        readStep kernel f (raw, total) w =
          (.ok (if bs.val.length = 0 ∨ raw.len ≤ total + bs.val.length then
              .done (raw.patch total bs.val, total + bs.val.length)
            else .next (raw.patch total bs.val, total + bs.val.length)),
            ⟨s, w.trace ++ [⟨.read f len, .ok bs⟩]⟩)) ∨
      ∃ e s, kernel (.read f len) w.state = (.error e, s) ∧
        ∃ reply s', readStep kernel f (raw, total) w =
          (.err e, ⟨s', w.trace ++ [⟨.read f len, .error e⟩, ⟨.close f, reply⟩]⟩)) := by
  have hlt := raw.len_lt
  obtain ⟨tail, htail, hlen⟩ := Slice.rangeFrom_room (ε := Errno) hroom.le
  refine ⟨tail.len, hlen, ?_⟩
  rw [readStep, htail, Sys.bind_of_ok (Sys.lift_apply _ _)]
  rcases hread : kernel (.read f tail.len) w.state with ⟨reply, s⟩
  rw [Sys.bind_of_ok (Sys.attempt_of_reply hread)]
  cases reply with
  | ok bs =>
    have hle := bs.property
    refine Or.inl ⟨bs, s, rfl, ?_⟩
    dsimp only
    rw [uadd_eq_ok (by omega), Sys.bind_of_ok (Sys.lift_apply _ _), Slice.len_patch]
    split_ifs
    · rfl
    · rfl
  | error e =>
    dsimp only
    rw [Sys.bind_of_ok (Sys.attempt_apply _ _ _), Sys.lift_apply, List.append_assoc]
    exact Or.inr ⟨e, s, rfl, _, _, rfl⟩

theorem readStep_chunked (sizes : ℕ → ℕ) (f : Fd.RawFd) {got : List UInt8}
    (hgot : got.length < 4096) (left : List UInt8) (i : ℕ) (trace : List Fd.Step) :
    ∃ k trace', 1 ≤ k ∧ k ≤ 4096 - got.length ∧
      readStep (chunked sizes) f (emptyRaw.patch 0 got, got.length) ⟨⟨left, i⟩, trace⟩ =
        (.ok (if (left.take k).length = 0 ∨ 4096 ≤ (got ++ left.take k).length then
            .done (emptyRaw.patch 0 (got ++ left.take k), (got ++ left.take k).length)
          else .next (emptyRaw.patch 0 (got ++ left.take k), (got ++ left.take k).length)),
          ⟨⟨left.drop k, i + 1⟩, trace'⟩) := by
  have hraw : (emptyRaw.patch 0 got).len = 4096 := by rw [Slice.len_patch, len_emptyRaw]
  have hroom : got.length < (emptyRaw.patch 0 got).len := hraw ▸ hgot
  obtain ⟨len, hlen, ⟨bs, s, hread, hpass⟩ | ⟨e, s, hread, -⟩⟩ :=
    readStep_cases (chunked sizes) f hroom ⟨⟨left, i⟩, trace⟩
  · obtain ⟨hbs, rfl⟩ := Prod.mk.inj hread
    obtain rfl := Except.ok.inj hbs
    dsimp only at hpass
    rw [Slice.patch_patch (by rw [List.length_take, len_emptyRaw]; omega), hraw,
      ← List.length_append] at hpass
    exact ⟨min len (max 1 (sizes i)), _, by omega, by omega, hpass⟩
  · cases (Prod.mk.inj hread).1

theorem readLoop_chunked (sizes : ℕ → ℕ) (f : Fd.RawFd) (fuel : ℕ) (got : List UInt8)
    (hgot : got.length < 4096) (hfuel : 4096 < got.length + fuel) (left : List UInt8) (i : ℕ)
    (trace : List Fd.Step) :
    ∃ w, Sys.loop (readStep (chunked sizes) f) fuel (emptyRaw.patch 0 got, got.length)
        ⟨⟨left, i⟩, trace⟩ =
      (.ok (emptyRaw.patch 0 ((got ++ left).take 4096), ((got ++ left).take 4096).length), w) := by
  induction fuel generalizing got left i trace with
  | zero => omega
  | succ fuel ih =>
    obtain ⟨k, trace', hpos, hroom, hpass⟩ := readStep_chunked sizes f hgot left i trace
    rw [Sys.loop, Sys.bind_of_ok hpass]
    have hsplit : got ++ left.take k ++ left.drop k = got ++ left := by
      rw [List.append_assoc, List.take_append_drop]
    by_cases hend : (left.take k).length = 0 ∨ 4096 ≤ (got ++ left.take k).length
    · rw [if_pos hend]
      have hall : (got ++ left).take 4096 = got ++ left.take k := by
        rcases hend with hzero | hfull
        · have hleft : left = [] :=
            (List.take_eq_nil_iff.mp (List.length_eq_zero_iff.mp hzero)).resolve_left (by omega)
          rw [hleft, List.take_nil, List.append_nil, List.take_of_length_le hgot.le]
        · have hexact : (got ++ left.take k).length = 4096 := by
            have htake := List.length_take_le k left
            rw [List.length_append] at hfull ⊢
            omega
          rw [← hsplit, ← hexact, List.take_left]
      rw [hall]
      exact ⟨_, rfl⟩
    · rw [if_neg hend]
      rw [List.length_append] at hend
      obtain ⟨w, hw⟩ := ih (got ++ left.take k) (by rw [List.length_append]; omega)
        (by rw [List.length_append]; omega) (left.drop k) (i + 1) trace'
      rw [hsplit] at hw
      exact ⟨w, hw⟩

def configured (sizes : ℕ → ℕ) (text : List Char) : Outcome Errno Nameservers :=
  (readNameservers (chunked sizes) ⟨⟨utf8 text, 0⟩, []⟩).1

theorem configured_eq (sizes : ℕ → ℕ) (text : List Char) :
    configured sizes text =
      match fromUtf8 ((utf8 text).take 4096) with
      | none => .err .EINVAL
      | some front => scanText front := by
  have hraw := len_emptyRaw
  have hopen : chunked sizes (.openat Fd.atFdcwd resolvConf Fd.oRdonly 0) ⟨utf8 text, 0⟩ =
      (.ok 3, ⟨utf8 text, 0⟩) := rfl
  obtain ⟨w, hloop⟩ := readLoop_chunked sizes 3 (emptyRaw.len + 1) [] (by decide)
    (by rw [hraw]; decide) (utf8 text) 0
    [⟨.openat Fd.atFdcwd resolvConf Fd.oRdonly 0, .ok 3⟩]
  rw [Slice.patch_nil, List.length_nil, List.nil_append] at hloop
  have hfits : ((utf8 text).take 4096).length ≤ emptyRaw.len := by
    rw [hraw]
    exact List.length_take_le _ _
  have hrange : ((emptyRaw.patch 0 ((utf8 text).take 4096)).range 0 ((utf8 text).take 4096).length :
      Outcome Errno (List UInt8)) = .ok ((utf8 text).take 4096) := Slice.range_front hfits
  rw [configured, readNameservers, Sys.bind_of_ok (Sys.call_of_reply hopen)]
  simp only [List.nil_append]
  rw [Sys.bind_of_ok hloop]
  dsimp only
  rw [Sys.bind_of_ok (Sys.attempt_apply _ _ _), hrange, Sys.bind_of_ok (Sys.lift_apply _ _)]
  cases fromUtf8 ((utf8 text).take 4096) with
  | none => rfl
  | some front => rfl

theorem addresses_append {done : List Char} (h : WholeLines done) (rest : List Char) :
    addresses (done ++ rest) = addresses done ++ addresses rest := by
  rw [addresses, lines_append h, List.filterMap_append]
  rfl

theorem addresses_piece {piece : List Char} (h : lineFeed ∉ piece) :
    addresses piece = (lineAddress piece).toList := by
  by_cases hne : piece = []
  · subst hne
    rfl
  · rw [addresses, lines_of_not_mem hne h]
    cases haddr : lineAddress piece with
    | none => rw [List.filterMap_cons_none haddr]; rfl
    | some a => rw [List.filterMap_cons_some haddr]; rfl

/-- If the first 4096 bytes are whole lines and then a piece of a line, the piece
is not taken for an address, or comes too late to count, or gives the address
that comes next in the file anyway. -/
def CutHarmless (text : List Char) : Prop :=
  ∀ done piece back, text = done ++ (piece ++ back) → (utf8 (done ++ piece)).length = 4096 →
    WholeLines done → lineFeed ∉ piece →
      maxNameservers ≤ (addresses done).length ∨ lineAddress piece = none ∨
        lineAddress piece = (addresses (piece ++ back)).head?

/-- The addresses come from the file: from whole lines, in order, at most three,
and whatever the sizes of the reads. -/
def ReadsConfig (text : List Char) : Prop :=
  ∀ sizes, (∀ sizes', configured sizes' text = configured sizes text) ∧
    ∀ ns, configured sizes text = .ok ns →
      (∀ a ∈ ns.active, ∃ line ∈ lines text, lineAddress line = some a) ∧
      ns.active <+: addresses text ∧ ns.active.length ≤ 3

theorem readsConfig_iff {text : List Char} : ReadsConfig text ↔
    ∀ front back, text = front ++ back → utf8 front = (utf8 text).take 4096 →
      (addresses front).take maxNameservers <+: addresses text := by
  constructor
  · intro h front back htext hfront
    have hrun := configured_eq (fun _ => 1) text
    rw [fromUtf8_take.mpr ⟨back, htext, hfront⟩] at hrun
    rcases active_scanText front with ⟨-, hnone⟩ | ⟨ns, hok, hactive⟩
    · rw [hnone]
      exact List.nil_prefix
    · rw [← hactive]
      exact ((h _).2 ns (hrun.trans hok)).2.1
  · intro h sizes
    refine ⟨fun sizes' => by rw [configured_eq, configured_eq], fun ns hns => ?_⟩
    rw [configured_eq] at hns
    cases hdecode : fromUtf8 ((utf8 text).take 4096) with
    | none =>
      rw [hdecode] at hns
      cases hns
    | some front =>
      rw [hdecode] at hns
      dsimp only at hns
      obtain ⟨back, htext, hfront⟩ := fromUtf8_take.mp hdecode
      rcases active_scanText front with ⟨herr, -⟩ | ⟨ns', hok, hactive⟩
      · rw [herr] at hns
        cases hns
      · obtain rfl := Outcome.ok.inj (hok.symm.trans hns)
        have hpre := h front back htext hfront
        rw [← hactive] at hpre
        refine ⟨fun a ha => ?_, hpre, ?_⟩
        · exact List.mem_filterMap.mp (hpre.subset ha)
        · rw [hactive]
          exact List.length_take_le _ _

theorem addresses_cut {done piece : List Char} (hdone : WholeLines done) (hpiece : lineFeed ∉ piece)
    (back : List Char) :
    addresses (done ++ piece) = addresses done ++ (lineAddress piece).toList ∧
      addresses (done ++ (piece ++ back)) = addresses done ++ addresses (piece ++ back) := by
  rw [addresses_append hdone, addresses_append hdone, addresses_piece hpiece]
  exact ⟨rfl, rfl⟩

theorem utf8_front {front back : List Char} (h : (utf8 front).length = 4096) :
    utf8 front = (utf8 (front ++ back)).take 4096 := by
  rw [utf8_append, ← h, List.take_left]

theorem take_prefix_iff {α : Type} {n : ℕ} {a b : List α} {x : Option α} :
    (a ++ x.toList).take n <+: a ++ b ↔ n ≤ a.length ∨ x = none ∨ x = b.head? := by
  cases x with
  | none =>
    refine iff_of_true ?_ (Or.inr (Or.inl rfl))
    rw [Option.toList_none, List.append_nil]
    exact (List.take_prefix n a).trans (List.prefix_append a b)
  | some y =>
    rcases Nat.lt_or_ge a.length n with hlt | hge
    · have hall : (a ++ [y]).take n = a ++ [y] := by
        apply List.take_of_length_le
        rw [List.length_append]
        exact hlt
      rw [Option.toList_some, hall, List.prefix_append_right_inj]
      cases b with
      | nil => simp [Nat.not_le.mpr hlt]
      | cons z b => simp [Nat.not_le.mpr hlt, List.cons_prefix_cons]
    · refine iff_of_true ?_ (Or.inl hge)
      rw [List.take_append_of_le_length hge]
      exact (List.take_prefix n a).trans (List.prefix_append a b)

/-- The addresses come from the configuration exactly if the cut at 4096 bytes
does no harm. -/
theorem readNameservers_faithful_iff (text : List Char) : ReadsConfig text ↔ CutHarmless text := by
  rw [readsConfig_iff]
  constructor
  · intro h done piece back htext hlen hdone hpiece
    obtain ⟨hfront, hwhole⟩ := addresses_cut hdone hpiece back
    have hpre := h (done ++ piece) back (by rw [htext, List.append_assoc])
      (by rw [htext, ← List.append_assoc]; exact utf8_front hlen)
    rw [htext, hfront, hwhole] at hpre
    exact take_prefix_iff.mp hpre
  · intro h front back htext hfront
    rcases Nat.lt_or_ge (utf8 text).length 4096 with hshort | hlong
    · -- nothing is cut off
      rw [List.take_of_length_le hshort.le] at hfront
      rw [utf8_injective hfront]
      exact List.take_prefix _ _
    · have hlen : (utf8 front).length = 4096 := by
        rw [hfront, List.length_take]
        omega
      obtain ⟨done, piece, rfl, hdone, hpiece⟩ := exists_wholeLines front
      obtain ⟨hcut, hwhole⟩ := addresses_cut hdone hpiece back
      rw [List.append_assoc] at htext
      rw [htext, hcut, hwhole]
      exact take_prefix_iff.mpr (h done piece back htext hlen hdone hpiece)

def emptyLines : List Char := List.replicate 4077 lineFeed

/-- The last digit of the nameserver is the 4097th byte. -/
def cutConfig : List Char := emptyLines ++ ("nameserver 10.0.0.1".toList ++ "2\n".toList)

theorem wholeLines_replicate (n : ℕ) : WholeLines (List.replicate n lineFeed) := by
  cases n with
  | zero => exact Or.inl rfl
  | succ n => exact Or.inr ⟨List.replicate n lineFeed, List.replicate_succ'⟩

theorem addresses_replicate (n : ℕ) : addresses (List.replicate n lineFeed) = [] := by
  induction n with
  | zero => rfl
  | succ n ih =>
    have hline : WholeLines [lineFeed] := Or.inr ⟨[], rfl⟩
    rw [List.replicate_succ, ← List.singleton_append, addresses_append hline, ih]
    rfl

theorem length_utf8_replicate (n : ℕ) : (utf8 (List.replicate n lineFeed)).length = n := by
  induction n with
  | zero => rfl
  | succ n ih =>
    rw [List.replicate_succ, ← List.singleton_append, utf8_append, List.length_append, ih,
      Nat.add_comm]
    rfl

theorem configured_cutConfig :
    (∃ ns, configured (fun _ => 4096) cutConfig = .ok ns ∧ ns.active = [#v[10, 0, 0, 1]]) ∧
      addresses cutConfig = [#v[10, 0, 0, 12]] ∧ ¬ ReadsConfig cutConfig := by
  have hdone : WholeLines emptyLines := wholeLines_replicate _
  have hpiece : lineFeed ∉ "nameserver 10.0.0.1".toList := by decide
  have haddr : lineAddress "nameserver 10.0.0.1".toList = some #v[10, 0, 0, 1] := by decide +kernel
  have hrest : addresses ("nameserver 10.0.0.1".toList ++ "2\n".toList) = [#v[10, 0, 0, 12]] := by
    decide +kernel
  obtain ⟨hcut, hwhole⟩ := addresses_cut hdone hpiece "2\n".toList
  rw [haddr, emptyLines, addresses_replicate] at hcut
  rw [hrest, emptyLines, addresses_replicate] at hwhole
  have hlen : (utf8 (emptyLines ++ "nameserver 10.0.0.1".toList)).length = 4096 := by
    rw [utf8_append, List.length_append, emptyLines, length_utf8_replicate]
    rfl
  have hrun : ∃ ns, configured (fun _ => 4096) cutConfig = .ok ns ∧
      ns.active = [#v[10, 0, 0, 1]] := by
    have hdecode : fromUtf8 ((utf8 cutConfig).take 4096) =
        some (emptyLines ++ "nameserver 10.0.0.1".toList) := by
      rw [cutConfig, ← List.append_assoc, ← utf8_front hlen, fromUtf8_utf8]
    rcases active_scanText (emptyLines ++ "nameserver 10.0.0.1".toList) with
      ⟨-, hnone⟩ | ⟨ns, hok, hactive⟩
    · rw [emptyLines, hcut] at hnone
      cases hnone
    · rw [emptyLines, hcut] at hactive
      refine ⟨ns, ?_, hactive⟩
      rw [configured_eq, hdecode]
      exact hok
  refine ⟨hrun, hwhole, fun h => ?_⟩
  obtain ⟨ns, hns, hactive⟩ := hrun
  have hpre := ((h _).2 ns hns).2.1
  rw [hactive, cutConfig, emptyLines, hwhole] at hpre
  exact absurd hpre (by decide)

end RustyLibc.Dns
