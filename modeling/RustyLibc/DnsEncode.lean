import RustyLibc.DnsDecode
import RustyLibc.DnsQuery

/-!
# What `build_query` writes (`dns.rs`)

`put` writes behind what has been written already and leaves the rest of the
buffer alone, so a state of the encoder is determined by the bytes written so
far: it is `written buf done`. `Writes` says of a run of writes that it ends in
such a state, or in `EINVAL` when a label is out of range or the bytes do not
fit; it composes along `>>=`, and `buildQuery` is one such run. The bytes are
those of a message with one question and no answer, so what the response reader
makes of a query is known from `DnsDecode`.

The buffer of `query` has 256 bytes. Header, root label, type and class take 18
of them, which leaves 238 for the text of a hostname where the protocol allows
253.
-/

namespace RustyLibc.Dns
open Outcome ByteOrder

def written (buf : Slice) (done : List UInt8) : Slice × ℕ := (buf.patch 0 done, done.length)

def Writes (buf : Slice) (valid : Prop) (bs : List UInt8) (x : Outcome Errno (Slice × ℕ)) : Prop :=
  (valid ∧ bs.length ≤ buf.len ∧ x = .ok (written buf bs)) ∨
    (¬ (valid ∧ bs.length ≤ buf.len) ∧ x = .err .EINVAL)

theorem Writes.bind {buf : Slice} {v w : Prop} {bs cs : List UInt8}
    {x : Outcome Errno (Slice × ℕ)} {f : Slice × ℕ → Outcome Errno (Slice × ℕ)}
    (hx : Writes buf v bs x) (hv : w → v) (hlen : bs.length ≤ cs.length)
    (hf : v → bs.length ≤ buf.len → Writes buf w cs (f (written buf bs))) :
    Writes buf w cs (x >>= f) := by
  rcases hx with ⟨hvalid, hfits, rfl⟩ | ⟨hno, rfl⟩
  · exact hf hvalid hfits
  · refine Or.inr ⟨fun hw => hno ⟨hv hw.1, hlen.trans hw.2⟩, rfl⟩

theorem Writes.congr {buf : Slice} {v w : Prop} {bs : List UInt8} {x : Outcome Errno (Slice × ℕ)}
    (hx : Writes buf v bs x) (hvw : v ↔ w) : Writes buf w bs x := by
  rw [← propext hvw]
  exact hx

theorem written_nil (buf : Slice) : written buf [] = (buf, 0) := by
  simp [written]

theorem written_parts (buf : Slice) {done : List UInt8} (h : done.length ≤ buf.len) :
    (written buf done).1.bytes.take done.length = done ∧
      (written buf done).1.bytes.drop done.length = buf.bytes.drop done.length ∧
      (written buf done).1.len = buf.len := by
  rw [written, Slice.bytes_patch_zero h]
  exact ⟨List.take_left, List.drop_left, Slice.len_patch _ _ _⟩

theorem put_writes {buf : Slice} {done bs : List UInt8} (h : done.length ≤ buf.len)
    (hbs : bs.length < 2 ^ 63) : Writes buf True (done ++ bs) (put (written buf done) bs) := by
  have hlen := buf.len_lt
  have hadd : (uadd done.length bs.length : Outcome Errno ℕ) = .ok (done.length + bs.length) :=
    uadd_eq_ok (by omega)
  have hput : put (written buf done) bs =
      if done.length + bs.length > buf.len then .err .EINVAL
      else (written buf done).1.copyAt done.length (done.length + bs.length) bs >>= fun b =>
        pure (b, done.length + bs.length) := by
    rw [put, written, hadd, ok_bind, Slice.len_patch]
  rw [hput]
  by_cases hfit : done.length + bs.length ≤ buf.len
  · refine Or.inl ⟨trivial, by simpa using hfit, ?_⟩
    rw [if_neg (by omega), written, Slice.copyAt_front hfit, ok_bind, ← List.length_append]
    rfl
  · refine Or.inr ⟨fun hw => hfit (by simpa using hw.2), ?_⟩
    rw [if_pos (by omega)]

def LabelText (l : List UInt8) : Prop := 1 ≤ l.length ∧ l.length ≤ 63

instance (l : List UInt8) : Decidable (LabelText l) := inferInstanceAs (Decidable (_ ∧ _))

def Encodable (hostname : List UInt8) : Prop :=
  hostname ≠ [] ∧ ∀ l ∈ hostname.splitOn dot, LabelText l

instance (hostname : List UInt8) : Decidable (Encodable hostname) :=
  inferInstanceAs (Decidable (_ ∧ _))

def encodeLabel (l : List UInt8) : List UInt8 := UInt8.ofNat l.length :: l

/-- The header, the labels with their lengths in front, the root label, type and
class. -/
def queryBytes (id : UInt16) (hostname : List UInt8) (qtype : UInt16) : List UInt8 :=
  u16ToBe id ++ (u16ToBe 0x0100 ++ (u16ToBe 1 ++ (u16ToBe 0 ++ (u16ToBe 0 ++ (u16ToBe 0 ++
    ((hostname.splitOn dot).flatMap encodeLabel ++ ([0] ++ (u16ToBe qtype ++ u16ToBe qclassIn))))))))

theorem putLabel_writes {buf : Slice} {done : List UInt8} (h : done.length ≤ buf.len)
    (l : List UInt8) :
    Writes buf (LabelText l) (done ++ encodeLabel l) (putLabel (written buf done) l) := by
  by_cases hl : LabelText l
  · obtain ⟨hpos, hle⟩ := hl
    have hne : ¬ (l = [] ∨ l.length > 63) := by
      intro hbad
      rcases hbad with rfl | hlong
      · exact absurd hpos (by decide)
      · omega
    have hsplit : done ++ encodeLabel l = done ++ [UInt8.ofNat l.length] ++ l := by
      simp [encodeLabel]
    rw [putLabel, if_neg hne, hsplit]
    refine (put_writes h (by simp)).bind (fun _ => trivial) (by simp) fun _ hfit => ?_
    exact (put_writes hfit (by omega)).congr (iff_of_true trivial ⟨hpos, hle⟩)
  · have hbad : l = [] ∨ l.length > 63 := by
      by_contra hgood
      rw [not_or] at hgood
      exact hl ⟨List.length_pos_iff.mpr hgood.1, Nat.not_lt.mp hgood.2⟩
    rw [putLabel, if_pos hbad]
    exact Or.inr ⟨fun hw => hl hw.1, rfl⟩

theorem putLabels_writes {buf : Slice} (ls : List (List UInt8)) {done : List UInt8}
    (h : done.length ≤ buf.len) :
    Writes buf (∀ l ∈ ls, LabelText l) (done ++ ls.flatMap encodeLabel)
      (ls.foldlM putLabel (written buf done)) := by
  induction ls generalizing done with
  | nil => exact Or.inl ⟨by simp, by simpa using h, by simp⟩
  | cons l ls ih =>
    rw [List.foldlM_cons, List.flatMap_cons, ← List.append_assoc]
    refine (putLabel_writes h l).bind (fun hall => hall l List.mem_cons_self) (by simp) ?_
    intro hl hfit
    exact (ih hfit).congr (by simp [hl])

theorem put_writes_bind {buf : Slice} {w : Prop} {done bs cs : List UInt8}
    {f : Slice × ℕ → Outcome Errno (Slice × ℕ)} (h : done.length ≤ buf.len)
    (hbs : bs.length < 2 ^ 63)
    (hf : (done ++ bs).length ≤ buf.len →
      Writes buf w (done ++ bs ++ cs) (f (written buf (done ++ bs)))) :
    Writes buf w (done ++ (bs ++ cs)) (put (written buf done) bs >>= f) := by
  rw [← List.append_assoc]
  exact (put_writes h hbs).bind (fun _ => trivial) (by simp) fun _ hfit => hf hfit

theorem buildQuery_writes (buf : Slice) (id : UInt16) (hostname : List UInt8) (qtype : UInt16) :
    Writes buf (Encodable hostname) (queryBytes id hostname qtype)
      (buildQuery buf id hostname qtype) := by
  by_cases hne : hostname = []
  · rw [buildQuery, if_pos hne]
    exact Or.inr ⟨fun hw => hw.1.1 hne, rfl⟩
  · rw [buildQuery, if_neg hne, ← written_nil buf, ← List.nil_append (queryBytes _ _ _), queryBytes]
    have htwo : ∀ x : UInt16, (u16ToBe x).length < 2 ^ 63 := fun x => by simp
    refine put_writes_bind (Nat.zero_le _) (htwo _) fun h => ?_
    refine put_writes_bind h (htwo _) fun h => ?_
    refine put_writes_bind h (htwo _) fun h => ?_
    refine put_writes_bind h (htwo _) fun h => ?_
    refine put_writes_bind h (htwo _) fun h => ?_
    refine put_writes_bind h (htwo _) fun h => ?_
    rw [← List.append_assoc]
    refine (putLabels_writes _ h).bind (fun hw => hw.2) (by simp) fun hls h => ?_
    refine put_writes_bind h (by simp) fun h => ?_
    refine put_writes_bind h (htwo _) fun h => ?_
    exact (put_writes h (htwo _)).congr (iff_of_true trivial ⟨hne, hls⟩)

theorem length_flatMap_encodeLabel {ls : List (List UInt8)} (h : ls ≠ []) :
    (ls.flatMap encodeLabel).length = ([dot].intercalate ls).length + 1 := by
  induction ls with
  | nil => exact absurd rfl h
  | cons l ls ih =>
    cases ls with
    | nil => simp [encodeLabel]
    | cons l' ls =>
      have hrest := ih (List.cons_ne_nil _ _)
      rw [List.flatMap_cons, List.length_append, hrest, List.intercalate_cons_cons]
      simp [encodeLabel]
      omega

theorem length_queryBytes (id : UInt16) (hostname : List UInt8) (qtype : UInt16) :
    (queryBytes id hostname qtype).length = hostname.length + 18 := by
  have hlabels := length_flatMap_encodeLabel (List.splitOn_ne_nil dot hostname)
  rw [List.intercalate_splitOn] at hlabels
  simp only [queryBytes, List.length_append, length_u16ToBe, hlabels, List.length_singleton]
  omega

theorem exists_labels {ls : List (List UInt8)} (h : ∀ l ∈ ls, LabelText l) :
    ∃ labels : List Label, labels.map Label.bytes = ls := by
  induction ls with
  | nil => exact ⟨[], rfl⟩
  | cons l ls ih =>
    obtain ⟨hl, hls⟩ := List.forall_mem_cons.mp h
    obtain ⟨labels, hlabels⟩ := ih hls
    exact ⟨⟨l, hl.1, hl.2⟩ :: labels, by simp [hlabels]⟩

def queryMessage (id : UInt16) (labels : List Label) (qtype : UInt16) : Message where
  id := id
  flags := 0x0100
  rcode_zero := by decide
  questions := [⟨⟨labels, .root⟩, qtype, qclassIn⟩]
  answers := []
  nscount := 0
  arcount := 0
  questions_lt := by simp
  answers_lt := by simp

theorem queryBytes_eq_encode {id qtype : UInt16} {hostname : List UInt8} {labels : List Label}
    (h : labels.map Label.bytes = hostname.splitOn dot) :
    queryBytes id hostname qtype = (queryMessage id labels qtype).encode := by
  have hlabels : (hostname.splitOn dot).flatMap encodeLabel = labels.flatMap Label.encode := by
    rw [← h, List.flatMap_map]
    rfl
  simp [queryBytes, hlabels, Message.encode, Message.header, queryMessage, Question.encode,
    Name.encode, NameEnd.encode]

theorem read_queryBytes {q : Slice} {id qtype : UInt16} {hostname : List UInt8}
    (hvalid : ∀ l ∈ hostname.splitOn dot, LabelText l)
    (h : queryBytes id hostname qtype <+: q.bytes) :
    skipName q 12 = .ok (hostname.length + 14) ∧
      parseHeader q (hostname.length + 18) = .ok ⟨0, hostname.length + 18⟩ := by
  obtain ⟨labels, hlabels⟩ := exists_labels hvalid
  have hlen := length_queryBytes id hostname qtype
  rw [queryBytes_eq_encode hlabels] at h hlen
  have hholds : Holds q 0 (queryMessage id labels qtype).encode := h
  have hquestion : Holds q 12 ((queryMessage id labels qtype).questions.flatMap Question.encode) := by
    have hright := hholds.right.left
    rwa [Message.length_header] at hright
  have hname : Holds q 12 (⟨labels, .root⟩ : Name).encode := by
    simp only [queryMessage, List.flatMap_singleton] at hquestion
    exact hquestion.left
  have hsize : ((queryMessage id labels qtype).questions.flatMap Question.encode).length =
      (⟨labels, .root⟩ : Name).encode.length + 4 := by
    simp [queryMessage, Question.encode]
  have hanswers : ((queryMessage id labels qtype).answers.flatMap Record.encode).length = 0 := rfl
  rw [Message.length_encode] at hlen
  refine ⟨?_, ?_⟩
  · rw [hname.skipName]
    congr 1
    omega
  · rw [hholds.parseHeader, if_pos (by omega)]
    congr 2

theorem u16ToBe_append_inj {x y : UInt16} {as bs : List UInt8}
    (h : u16ToBe x ++ as = u16ToBe y ++ bs) : x = y ∧ as = bs := by
  obtain ⟨hx, has⟩ := List.append_inj h (by simp)
  obtain ⟨hi, lo, hbytes, hval⟩ := u16ToBe_eq x
  obtain ⟨hi', lo', hbytes', hval'⟩ := u16ToBe_eq y
  rw [hbytes, hbytes'] at hx
  obtain ⟨rfl, rfl⟩ : hi = hi' ∧ lo = lo' := by simpa using hx
  exact ⟨hval.symm.trans hval', has⟩

theorem encodeLabel_append_inj {l l' : List UInt8} (hl : LabelText l) (hl' : LabelText l')
    {as bs : List UInt8} (h : encodeLabel l ++ as = encodeLabel l' ++ bs) : l = l' ∧ as = bs := by
  obtain ⟨hoctet, hrest⟩ := List.cons.inj h
  have hlen : l.length = l'.length := by
    rw [← (label_octet ⟨l, hl.1, hl.2⟩).2.2, ← (label_octet ⟨l', hl'.1, hl'.2⟩).2.2]
    exact congrArg UInt8.toNat hoctet
  exact List.append_inj hrest hlen

/-- The root label ends the names: no label starts with a zero octet. -/
theorem encodeLabels_append_inj {ls ls' : List (List UInt8)} (hls : ∀ l ∈ ls, LabelText l)
    (hls' : ∀ l ∈ ls', LabelText l) {as bs : List UInt8}
    (h : ls.flatMap encodeLabel ++ 0 :: as = ls'.flatMap encodeLabel ++ 0 :: bs) :
    ls = ls' ∧ as = bs := by
  have hnonzero : ∀ {l : List UInt8}, LabelText l → UInt8.ofNat l.length ≠ 0 :=
    fun {l} hl => (label_octet ⟨l, hl.1, hl.2⟩).1
  induction ls generalizing ls' with
  | nil =>
    cases ls' with
    | nil => exact ⟨rfl, (List.cons.inj h).2⟩
    | cons l' ls' =>
      exact absurd (List.cons.inj h).1.symm (hnonzero (hls' l' List.mem_cons_self))
  | cons l ls ih =>
    cases ls' with
    | nil => exact absurd (List.cons.inj h).1 (hnonzero (hls l List.mem_cons_self))
    | cons l' ls' =>
      obtain ⟨hl, hrest⟩ := List.forall_mem_cons.mp hls
      obtain ⟨hl', hrest'⟩ := List.forall_mem_cons.mp hls'
      rw [List.flatMap_cons, List.flatMap_cons, List.append_assoc, List.append_assoc] at h
      obtain ⟨rfl, htail⟩ := encodeLabel_append_inj hl hl' h
      obtain ⟨rfl, hend⟩ := ih hrest hrest' htail
      exact ⟨rfl, hend⟩

theorem queryBytes_inj {id id' qtype qtype' : UInt16} {hostname hostname' : List UInt8}
    (hvalid : ∀ l ∈ hostname.splitOn dot, LabelText l)
    (hvalid' : ∀ l ∈ hostname'.splitOn dot, LabelText l)
    (h : queryBytes id hostname qtype = queryBytes id' hostname' qtype') :
    id = id' ∧ hostname = hostname' ∧ qtype = qtype' := by
  obtain ⟨hid, h⟩ := u16ToBe_append_inj h
  iterate 5 obtain ⟨-, h⟩ := u16ToBe_append_inj h
  obtain ⟨hlabels, h⟩ := encodeLabels_append_inj hvalid hvalid' h
  obtain ⟨hqtype, -⟩ := u16ToBe_append_inj h
  refine ⟨hid, ?_, hqtype⟩
  calc hostname = [dot].intercalate (hostname.splitOn dot) := (List.intercalate_splitOn dot).symm
    _ = [dot].intercalate (hostname'.splitOn dot) := by rw [hlabels]
    _ = hostname' := List.intercalate_splitOn dot

theorem buildQuery_eq_ok {buf : Slice} {id : UInt16} {hostname : List UInt8} {qtype : UInt16}
    {st : Slice × ℕ} : buildQuery buf id hostname qtype = .ok st ↔
      (Encodable hostname ∧ hostname.length + 18 ≤ buf.len) ∧
        st = written buf (queryBytes id hostname qtype) := by
  have hwrites := buildQuery_writes buf id hostname qtype
  rw [Writes, length_queryBytes] at hwrites
  rcases hwrites with ⟨hvalid, hfits, hok⟩ | ⟨hno, herr⟩
  · rw [hok, Outcome.ok.injEq]
    constructor
    · intro h
      exact ⟨⟨hvalid, hfits⟩, h.symm⟩
    · intro h
      exact h.2.symm
  · rw [herr]
    constructor
    · intro h
      cases h
    · intro h
      exact absurd h.1 hno

theorem buildQuery_eq_err {buf : Slice} {id : UInt16} {hostname : List UInt8} {qtype : UInt16}
    (h : ¬ (Encodable hostname ∧ hostname.length + 18 ≤ buf.len)) :
    buildQuery buf id hostname qtype = .err .EINVAL := by
  have hwrites := buildQuery_writes buf id hostname qtype
  rw [Writes, length_queryBytes] at hwrites
  rcases hwrites with ⟨hvalid, hfits, -⟩ | ⟨-, herr⟩
  · exact absurd ⟨hvalid, hfits⟩ h
  · exact herr

/-- `build_query` succeeds exactly on the hostnames that can be encoded and fit;
what it writes can be read back, by hand and by the response reader. -/
theorem buildQuery_exact (buf : Slice) (id : UInt16) (hostname : List UInt8) (qtype : UInt16) :
    ((∃ q k, buildQuery buf id hostname qtype = .ok (q, k)) ↔
      Encodable hostname ∧ hostname.length + 18 ≤ buf.len) ∧
    (∀ q k, buildQuery buf id hostname qtype = .ok (q, k) →
      k = hostname.length + 18 ∧ q.bytes.take k = queryBytes id hostname qtype ∧
      q.bytes.drop k = buf.bytes.drop k ∧ q.len = buf.len ∧
      (∀ buf' id' hostname' qtype' q' k', buildQuery buf' id' hostname' qtype' = .ok (q', k') →
        q'.bytes.take k' = q.bytes.take k → id' = id ∧ hostname' = hostname ∧ qtype' = qtype) ∧
      skipName q 12 = .ok (k - 4) ∧ parseHeader q k = .ok ⟨0, k⟩) ∧
    (¬ (Encodable hostname ∧ hostname.length + 18 ≤ buf.len) →
      buildQuery buf id hostname qtype = .err .EINVAL) := by
  refine ⟨⟨?_, ?_⟩, ?_, buildQuery_eq_err⟩
  · intro h
    obtain ⟨q, k, hok⟩ := h
    exact (buildQuery_eq_ok.mp hok).1
  · intro h
    exact ⟨_, _, buildQuery_eq_ok.mpr ⟨h, rfl⟩⟩
  · intro q k hok
    obtain ⟨⟨hvalid, hfits⟩, hst⟩ := buildQuery_eq_ok.mp hok
    have hlen := length_queryBytes id hostname qtype
    have hk : k = hostname.length + 18 := (congrArg Prod.snd hst).trans hlen
    have hq : q = (written buf (queryBytes id hostname qtype)).1 := congrArg Prod.fst hst
    subst hk hq
    obtain ⟨htake, hdrop, hsize⟩ := written_parts buf (hlen.trans_le hfits)
    rw [hlen] at htake hdrop
    obtain ⟨hskip, hparse⟩ := read_queryBytes hvalid.2 (htake ▸ List.take_prefix _ _)
    refine ⟨rfl, htake, hdrop, hsize, ?_, hskip, hparse⟩
    intro buf' id' hostname' qtype' q' k' hok' hsame
    obtain ⟨⟨hvalid', hfits'⟩, hst'⟩ := buildQuery_eq_ok.mp hok'
    have hlen' := length_queryBytes id' hostname' qtype'
    have htake' := (written_parts buf' (hlen'.trans_le hfits')).1
    obtain ⟨rfl, rfl⟩ := Prod.mk.inj hst'
    exact queryBytes_inj hvalid'.2 hvalid.2 (htake'.symm.trans (hsame.trans htake))

theorem buildQuery_exact_aIo :
    Encodable aIo ∧ aIo.length + 18 ≤ emptyQbuf.len ∧
      ∃ q k, buildQuery emptyQbuf 0x1234 aIo qtypeA = .ok (q, k) ∧ k = 22 ∧
        skipName q 12 = .ok 18 ∧ parseHeader q 22 = .ok ⟨0, 22⟩ := by
  have hvalid : Encodable aIo := by decide +kernel
  obtain ⟨hiff, hwritten, -⟩ := buildQuery_exact emptyQbuf 0x1234 aIo qtypeA
  obtain ⟨q, k, hok⟩ := hiff.mpr ⟨hvalid, by decide +kernel⟩
  obtain ⟨rfl, -, -, -, -, hskip, hparse⟩ := hwritten q k hok
  exact ⟨hvalid, by decide +kernel, q, _, hok, rfl, hskip, hparse⟩

def LegalHostname (hostname : List UInt8) : Prop :=
  (∀ l ∈ hostname.splitOn dot, LabelText l) ∧ hostname.length ≤ 253

instance (hostname : List UInt8) : Decidable (LegalHostname hostname) :=
  inferInstanceAs (Decidable (_ ∧ _))

def CanQuery (id : UInt16) (hostname : List UInt8) (qtype : UInt16) : Prop :=
  ∃ q k, buildQuery emptyQbuf id hostname qtype = .ok (q, k)

theorem canQuery_iff {id : UInt16} {hostname : List UInt8} {qtype : UInt16} :
    CanQuery id hostname qtype ↔ Encodable hostname ∧ hostname.length ≤ 238 := by
  have hlen : emptyQbuf.len = 256 := length_filled 256 []
  constructor
  · intro h
    obtain ⟨q, k, hok⟩ := h
    obtain ⟨⟨hvalid, hfits⟩, -⟩ := buildQuery_eq_ok.mp hok
    exact ⟨hvalid, by omega⟩
  · intro h
    exact ⟨_, _, buildQuery_eq_ok.mpr ⟨⟨h.1, by omega⟩, rfl⟩⟩

theorem LegalHostname.encodable {hostname : List UInt8} (h : LegalHostname hostname) :
    Encodable hostname := by
  refine ⟨?_, h.1⟩
  intro hnil
  subst hnil
  exact absurd (h.1 [] (by simp)).1 (by decide)

/-- Every legal hostname can be queried exactly if it has no more than 238
bytes. -/
theorem legalHostname_canQuery_iff (id : UInt16) (hostname : List UInt8) (qtype : UInt16) :
    ((LegalHostname hostname → CanQuery id hostname qtype) ∧
        (CanQuery id hostname qtype → hostname.length ≤ 253)) ↔
      (LegalHostname hostname → hostname.length ≤ 238) := by
  constructor
  · intro h hlegal
    exact (canQuery_iff.mp (h.1 hlegal)).2
  · intro h
    refine ⟨fun hlegal => canQuery_iff.mpr ⟨hlegal.encodable, h hlegal⟩, fun hcan => ?_⟩
    have hle := (canQuery_iff.mp hcan).2
    omega

/-- Four labels, of 63, 63, 63 and 61 letters: the longest text whose wire form
has 255 octets. -/
def longestHostname : List UInt8 :=
  [dot].intercalate [List.replicate 63 97, List.replicate 63 97, List.replicate 63 97,
    List.replicate 61 97]

theorem longestHostname_refused :
    LegalHostname longestHostname ∧ longestHostname.length = 253 ∧
      buildQuery emptyQbuf 0x1234 longestHostname qtypeA = .err .EINVAL ∧
      ¬ CanQuery 0x1234 longestHostname qtypeA := by
  have hlen : longestHostname.length = 253 := by decide +kernel
  have hno : ¬ (Encodable longestHostname ∧ longestHostname.length + 18 ≤ emptyQbuf.len) := by
    intro h
    have hbuf : emptyQbuf.len = 256 := length_filled 256 []
    omega
  refine ⟨by decide +kernel, hlen, buildQuery_eq_err hno, fun h => ?_⟩
  have hle := (canQuery_iff.mp h).2
  omega

end RustyLibc.Dns
