import RustyLibc.CountedRuns
import RustyLibc.FdTable

/-!
# A pipe between `write_all` and `read_all` (`fd.rs`)

`pipe2` hands over two descriptors. One process writes a buffer into the pipe with
`write_all` and closes its end, the other fills a buffer with `read_all` and closes
the other end. They take turns in any order. The kernel moves some of the bytes it
was asked to move, at least one and at most what the pipe has room for; a write of
at most `PIPE_BUF` bytes is moved whole. It blocks a write into a full pipe and a
read from an empty one, which here means that there is no step, reports the end of
file when the pipe is empty and its writer has closed, `EPIPE` when the reader has
closed, and may interrupt either side at any time.
-/

namespace RustyLibc.Fd
open CountedRuns HostCalls Outcome

variable {σ : Type}

structure Ends where
  read : RawFd
  write : RawFd
  ne : read ≠ write
  deriving DecidableEq

/-- `pipe2`, given the result register and what the kernel has put into `fds`. -/
def pipe2 (ret : BitVec 64) (fds : Ends) : Except Errno Ends := do
  let _ ← fromRet ret
  pure fds

def close (kernel : Kernel σ) (fd : RawFd) : Call σ Unit := Sys.call kernel (.close fd)

structure Pipe where
  ends : Ends
  queue : List UInt8
  readable : Bool
  writable : Bool
  deriving DecidableEq

structure Limits where
  capacity : ℕ
  atomic : ℕ
  atomic_pos : 0 < atomic
  atomic_le : atomic ≤ capacity

def Pipe.closed (p : Pipe) (fd : RawFd) : Pipe :=
  if fd = p.ends.read then { p with readable := false }
  else if fd = p.ends.write then { p with writable := false }
  else p

/-- What the kernel may answer, and the pipe behind it. -/
def Pipe.Serves (k : Limits) (p : Pipe) : Step → Pipe → Prop
  | ⟨.write _ bytes, .ok n⟩, p' => p.readable = true ∧ 0 < n.val ∧
      (bytes.length ≤ k.atomic → n.val = bytes.length) ∧
      p.queue.length + n.val ≤ k.capacity ∧ p' = { p with queue := p.queue ++ bytes.take n.val }
  | ⟨.write _ _, .error code⟩, p' => p' = p ∧
      (code = .EINTR ∨ code = .EPIPE ∧ p.readable = false)
  | ⟨.read _ _, .ok bs⟩, p' => bs.val ++ p'.queue = p.queue ∧
      p' = { p with queue := p'.queue } ∧ (bs.val = [] → p.queue = [] ∧ p.writable = false)
  | ⟨.read _ _, .error code⟩, p' => p' = p ∧ code = .EINTR
  | ⟨.close fd, .ok _⟩, p' => p' = p.closed fd
  | _, _ => False

inductive Phase (τ α : Type) where
  | running (st : τ)
  | returned (r : Outcome Errno α)
  | closed (r : Outcome Errno α)

namespace Phase

variable {τ α : Type}

def after : Outcome Errno (Pass τ α) → Phase τ α
  | .ok (.next st) => running st
  | .ok (.done a) => returned (.ok a)
  | .err e => returned (.err e)
  | .panic => returned .panic
  | .diverge => returned .diverge

def result : Phase τ α → Option (Outcome Errno α)
  | running _ => none
  | returned r => some r
  | closed r => some r

end Phase

structure Transfer where
  pipe : Pipe
  writer : Phase Slice Unit
  reader : Phase (Slice × ℕ) (Slice × ℕ)

namespace Transfer

def start (data buf : Slice) (ret : BitVec 64) (fds : Ends) : Except Errno Transfer := do
  let ends ← pipe2 ret fds
  pure ⟨⟨ends, [], true, true⟩, .running data, .running (buf, 0)⟩

/-- One pass of a loop, against whatever the kernel may answer, or a `close`. A
step is charged for an interruption. -/
inductive Moves (k : Limits) : ℕ → Transfer → Transfer → Prop
  | write {s : Transfer} {rest : Slice} {kernel : Kernel Pipe}
      {out : Outcome Errno (Pass Slice Unit)} {v : World Reply Errno Pipe}
      (hphase : s.writer = .running rest)
      (hrun : writeAllStep kernel s.pipe.ends.write rest ⟨s.pipe, []⟩ = (out, v))
      (hserves : ∀ e ∈ v.trace, s.pipe.Serves k e v.state) :
      Moves k (interruptions v.trace) s ⟨v.state, .after out, s.reader⟩
  | closeWriter {s : Transfer} {r out : Outcome Errno Unit} {kernel : Kernel Pipe}
      {v : World Reply Errno Pipe} (hphase : s.writer = .returned r)
      (hrun : close kernel s.pipe.ends.write ⟨s.pipe, []⟩ = (out, v))
      (hserves : ∀ e ∈ v.trace, s.pipe.Serves k e v.state) :
      Moves k (interruptions v.trace) s ⟨v.state, .closed r, s.reader⟩
  | read {s : Transfer} {st : Slice × ℕ} {kernel : Kernel Pipe}
      {out : Outcome Errno (Pass (Slice × ℕ) (Slice × ℕ))} {v : World Reply Errno Pipe}
      (hphase : s.reader = .running st)
      (hrun : readAllStep kernel s.pipe.ends.read st ⟨s.pipe, []⟩ = (out, v))
      (hserves : ∀ e ∈ v.trace, s.pipe.Serves k e v.state) :
      Moves k (interruptions v.trace) s ⟨v.state, s.writer, .after out⟩
  | closeReader {s : Transfer} {r : Outcome Errno (Slice × ℕ)} {out : Outcome Errno Unit}
      {kernel : Kernel Pipe} {v : World Reply Errno Pipe} (hphase : s.reader = .returned r)
      (hrun : close kernel s.pipe.ends.read ⟨s.pipe, []⟩ = (out, v))
      (hserves : ∀ e ∈ v.trace, s.pipe.Serves k e v.state) :
      Moves k (interruptions v.trace) s ⟨v.state, s.writer, .closed r⟩

end Transfer

section Passes

variable {k : Limits} {p p' : Pipe} {e : Step}

theorem Pipe.Serves.write {fd : RawFd} {bytes : List UInt8} (h : p.Serves k e p')
    (hreq : e.request = .write fd bytes) : e.tookNothing = false ∧
      (e.failure = none ∧ p.readable = true ∧ p' = { p with queue := p.queue ++ e.accepted } ∨
      p' = p ∧ e.accepted = [] ∧
        (e.failure = some .EINTR ∨ e.failure = some .EPIPE ∧ p.readable = false)) := by
  obtain ⟨request, reply⟩ := e
  obtain rfl : request = .write fd bytes := hreq
  cases reply with
  | ok n =>
    obtain ⟨hreadable, hpos, -, -, rfl⟩ := h
    exact ⟨by simpa [Step.tookNothing] using hpos.ne', .inl ⟨rfl, hreadable, rfl⟩⟩
  | error code =>
    obtain ⟨rfl, hcode⟩ := h
    exact ⟨rfl, .inr ⟨rfl, rfl, hcode.imp (congrArg some) (.imp_left (congrArg some))⟩⟩

theorem Pipe.Serves.read (h : p.Serves k e p') (hreq : e.request.IsRead) :
    e.failure = none ∧ e.taken ++ p'.queue = p.queue ∧ p' = { p with queue := p'.queue } ∧
        (e.taken = [] → p.queue = [] ∧ p.writable = false) ∨
      p' = p ∧ e.taken = [] ∧ e.failure = some .EINTR ∧ e.atEof = false := by
  obtain ⟨request, reply⟩ := e
  cases request with
  | read fd len =>
    cases reply with
    | ok bs => exact .inl ⟨rfl, h⟩
    | error code =>
      obtain ⟨rfl, rfl⟩ := h
      exact .inr ⟨rfl, rfl, rfl, rfl⟩
  | openat dir path flags mode => exact hreq.elim
  | write fd bytes => exact hreq.elim
  | close fd => exact hreq.elim

theorem interruptions_singleton (e : Step) :
    interruptions [e] = if e.failure = some .EINTR then 1 else 0 := by
  by_cases h : e.failure = some .EINTR
  · simp [interruptions, h]
  · simp [interruptions, h]

inductive Writes (p : Pipe) (rest : Slice) : Outcome Errno (Pass Slice Unit) → Pipe → ℕ → Prop
  | all (hnil : rest.bytes = []) : Writes p rest (.ok (.done ())) p 0
  | some {left : Slice} {bs : List UInt8} (hne : bs ≠ []) (hsplit : bs ++ left.bytes = rest.bytes)
      (hreader : p.readable = true) :
      Writes p rest (.ok (.next left)) { p with queue := p.queue ++ bs } 0
  | interrupted : Writes p rest (.ok (.next rest)) p 1
  | broken (hne : rest.bytes ≠ []) (hreader : p.readable = false) : Writes p rest (.err .EPIPE) p 0

theorem writes_of_pass {kernel : Kernel Pipe} {fd : RawFd} {rest : Slice}
    {out : Outcome Errno (Pass Slice Unit)} {v : World Reply Errno Pipe}
    (hrun : writeAllStep kernel fd rest ⟨p, []⟩ = (out, v))
    (hserves : ∀ e ∈ v.trace, p.Serves k e v.state) :
    Writes p rest out v.state (interruptions v.trace) := by
  have hends := writeAllStep_ends kernel fd rest ⟨p, []⟩
  rw [hrun] at hends
  cases out with
  | ok pass =>
    cases pass with
    | done =>
      obtain ⟨rfl, hnil⟩ := hends
      exact .all hnil
    | next left =>
      obtain ⟨e, htrace, hreq, -, hsplit, hund⟩ := hends
      have hserved := hserves e (by simp [htrace])
      rw [htrace, List.nil_append, interruptions_singleton]
      obtain ⟨-, ⟨hok, hreader, hpipe⟩ | ⟨hpipe, hnone, hfail⟩⟩ := hserved.write hreq
      · have hne : e.accepted ≠ [] := hund.resolve_left (by simp [hok])
        rw [hpipe, if_neg (by simp [hok])]
        exact .some hne hsplit hreader
      · have hintr : e.failure = some .EINTR := hund.resolve_right (by simp [hnone])
        obtain rfl : left = rest := by
          rw [hnone, List.nil_append] at hsplit
          cases left
          cases hsplit
          rfl
        rw [hpipe, if_pos hintr]
        exact .interrupted
  | err code =>
    obtain ⟨e, htrace, hreq, hne, -, hcode⟩ := hends
    have hserved := hserves e (by simp [htrace])
    rw [htrace, List.nil_append, interruptions_singleton]
    obtain ⟨hmoved, ⟨hok, -, -⟩ | ⟨hpipe, -, hfail⟩⟩ := hserved.write hreq
    · rcases hcode with ⟨hcode, -⟩ | ⟨-, hzero⟩
      · simp [hok] at hcode
      · simp [hmoved] at hzero
    · obtain ⟨hcode, hne'⟩ := hcode.resolve_right (by simp [hmoved])
      have hintr : e.failure ≠ some .EINTR := by simpa [hcode] using hne'
      obtain ⟨hepipe, hreader⟩ := hfail.resolve_left hintr
      obtain rfl : code = .EPIPE := Option.some.inj (hcode.symm.trans hepipe)
      rw [hpipe, if_neg hintr]
      exact .broken hne hreader
  | panic => exact hends.elim
  | diverge => exact hends.elim

inductive Reads (p : Pipe) (st : Slice × ℕ) :
    Outcome Errno (Pass (Slice × ℕ) (Slice × ℕ)) → Pipe → ℕ → Prop
  | full (hfull : st.1.len ≤ st.2) : Reads p st (.ok (.done st)) p 0
  | eof (hnil : p.queue = []) (hwriter : p.writable = false) : Reads p st (.ok (.done st)) p 0
  | some {queue bs : List UInt8} (hne : bs ≠ []) (hroom : st.2 + bs.length ≤ st.1.len)
      (hsplit : bs ++ queue = p.queue) :
      Reads p st (.ok (.next (st.1.patch st.2 bs, st.2 + bs.length))) { p with queue := queue } 0
  | interrupted : Reads p st (.ok (.next st)) p 1

theorem reads_of_pass {kernel : Kernel Pipe} {fd : RawFd} {st : Slice × ℕ}
    {out : Outcome Errno (Pass (Slice × ℕ) (Slice × ℕ))} {v : World Reply Errno Pipe}
    (hrun : readAllStep kernel fd st ⟨p, []⟩ = (out, v))
    (hserves : ∀ e ∈ v.trace, p.Serves k e v.state) :
    Reads p st out v.state (interruptions v.trace) := by
  have hends := readAllStep_ends kernel fd st ⟨p, []⟩
  have hreads := (readAllStep_asks kernel fd st p []).2
  rw [hrun] at hends hreads
  cases out with
  | ok pass =>
    cases pass with
    | next st' =>
      obtain ⟨e, htrace, hroom, rfl, hund, -⟩ := hends
      have hmem : e ∈ v.trace := by simp [htrace]
      rw [htrace, List.nil_append, interruptions_singleton]
      rcases (hserves e hmem).read (hreads e hmem) with ⟨hok, hsplit, hpipe, -⟩ |
        ⟨hpipe, hnone, hintr, -⟩
      · have hne : e.taken ≠ [] := hund.resolve_left (by simp [hok])
        rw [if_neg (by simp [hok]), hpipe]
        exact .some hne hroom hsplit
      · rw [hpipe, hnone, if_pos hintr, Slice.patch_nil]
        exact .interrupted
    | done st' =>
      obtain ⟨rfl, ⟨rfl, hfull⟩ | ⟨e, htrace, -, hnone, heof⟩⟩ := hends
      · exact .full hfull
      · have hmem : e ∈ v.trace := by simp [htrace]
        rw [htrace, List.nil_append, interruptions_singleton]
        rcases (hserves e hmem).read (hreads e hmem) with ⟨hok, hsplit, hpipe, hend⟩ |
          ⟨-, -, -, hmore⟩
        · obtain ⟨hnil, hwriter⟩ := hend hnone
          rw [hnone, List.nil_append] at hsplit
          rw [hpipe, hsplit, if_neg (by simp [hok])]
          exact .eof hnil hwriter
        · simp [hmore] at heof
  | err code =>
    obtain ⟨e, htrace, hfail, hne⟩ := hends
    have hmem : e ∈ v.trace := by simp [htrace]
    rcases (hserves e hmem).read (hreads e hmem) with ⟨hok, -⟩ | ⟨-, -, hintr, -⟩
    · simp [hok] at hfail
    · exact absurd (Option.some.inj (hfail.symm.trans hintr)) hne
  | panic => exact hends.elim
  | diverge => exact hends.elim

end Passes

theorem close_apply (kernel : Kernel σ) (fd : RawFd) (s : σ) :
    (close kernel fd ⟨s, []⟩).2 =
      ⟨(kernel (.close fd) s).2, [⟨.close fd, (kernel (.close fd) s).1⟩]⟩ := by
  rw [close, Sys.call, Sys.bind_of_ok (Sys.attempt_apply _ _ _)]
  cases (kernel (.close fd) s).1 with
  | ok u => rfl
  | error code => rfl

theorem closed_of_close {k : Limits} {p : Pipe} {kernel : Kernel Pipe} {fd : RawFd}
    {out : Outcome Errno Unit} {v : World Reply Errno Pipe}
    (hrun : close kernel fd ⟨p, []⟩ = (out, v)) (hserves : ∀ e ∈ v.trace, p.Serves k e v.state) :
    v.state = p.closed fd ∧ interruptions v.trace = 0 := by
  have hworld := close_apply kernel fd p
  rw [hrun] at hworld
  obtain rfl : v = _ := hworld
  have hserved := hserves _ List.mem_cons_self
  cases hreply : (kernel (.close fd) p).1 with
  | ok u =>
    rw [hreply] at hserved
    exact ⟨hserved, rfl⟩
  | error code =>
    rw [hreply] at hserved
    exact hserved.elim

theorem Pipe.closed_read (p : Pipe) : p.closed p.ends.read = { p with readable := false } :=
  if_pos rfl

theorem Pipe.closed_write (p : Pipe) : p.closed p.ends.write = { p with writable := false } := by
  rw [Pipe.closed, if_neg p.ends.ne.symm, if_pos rfl]

namespace Transfer

variable {data buf : Slice} {got : List UInt8} {p : Pipe}

/-- The result of the writer, given the bytes the reader has got. -/
def Wrote (data buf : Slice) (got : List UInt8) (p : Pipe) (r : Outcome Errno Unit) : Prop :=
  r = .ok () ∧ got ++ p.queue = data.bytes ∨
    r = .err .EPIPE ∧ got.length = buf.len ∧
      ∃ left, left ≠ [] ∧ got ++ p.queue ++ left = data.bytes

def WriterOk (data buf : Slice) (got : List UInt8) (p : Pipe) : Phase Slice Unit → Prop
  | .running rest => got ++ p.queue ++ rest.bytes = data.bytes ∧ p.writable = true
  | .returned r => Wrote data buf got p r ∧ p.writable = true
  | .closed r => Wrote data buf got p r ∧ p.writable = false

def Enough (buf : Slice) (got : List UInt8) (p : Pipe) : Prop :=
  got.length = buf.len ∨ p.queue = [] ∧ p.writable = false

def ReaderOk (buf : Slice) (got : List UInt8) (p : Pipe) : Phase (Slice × ℕ) (Slice × ℕ) → Prop
  | .running st => st = (buf.patch 0 got, got.length) ∧ p.readable = true
  | .returned r => r = .ok (buf.patch 0 got, got.length) ∧ Enough buf got p ∧ p.readable = true
  | .closed r => r = .ok (buf.patch 0 got, got.length) ∧ Enough buf got p ∧ p.readable = false

structure Flows (data buf : Slice) (got : List UInt8) (s : Transfer) : Prop where
  fits : got.length ≤ buf.len
  writer : WriterOk data buf got s.pipe s.writer
  reader : ReaderOk buf got s.pipe s.reader

theorem start_ok {ret : BitVec 64} {fds : Ends} {s : Transfer}
    (h : start data buf ret fds = .ok s) :
    s = ⟨⟨fds, [], true, true⟩, .running data, .running (buf, 0)⟩ := by
  rw [start, pipe2] at h
  cases hret : fromRet ret with
  | ok n =>
    rw [hret] at h
    exact (Except.ok.inj h).symm
  | error code =>
    rw [hret] at h
    cases h

theorem flows_start {ret : BitVec 64} {fds : Ends} {s : Transfer}
    (h : start data buf ret fds = .ok s) : Flows data buf [] s := by
  obtain rfl := start_ok h
  exact ⟨Nat.zero_le _, ⟨rfl, rfl⟩, by simp, rfl⟩

theorem Enough.full (h : Enough buf got p) (hwriter : p.writable = true) :
    got.length = buf.len := by
  rcases h with hfull | ⟨-, hclosed⟩
  · exact hfull
  · simp [hwriter] at hclosed

theorem ReaderOk.push {reader : Phase (Slice × ℕ) (Slice × ℕ)} (h : ReaderOk buf got p reader)
    (hwriter : p.writable = true) (queue : List UInt8) :
    ReaderOk buf got { p with queue := queue } reader := by
  cases reader with
  | running st => exact h
  | returned r => exact ⟨h.1, .inl (h.2.1.full hwriter), h.2.2⟩
  | closed r => exact ⟨h.1, .inl (h.2.1.full hwriter), h.2.2⟩

theorem ReaderOk.full (reader : Phase (Slice × ℕ) (Slice × ℕ)) (h : ReaderOk buf got p reader)
    (hreader : p.readable = false) (hwriter : p.writable = true) : got.length = buf.len := by
  cases reader with
  | running st => exact absurd (h.2.symm.trans hreader) (by simp)
  | returned r => exact h.2.1.full hwriter
  | closed r => exact h.2.1.full hwriter

theorem WriterOk.pop {writer : Phase Slice Unit} (h : WriterOk data buf got p writer)
    (hshort : got.length < buf.len) {bs queue : List UInt8} (hsplit : bs ++ queue = p.queue) :
    WriterOk data buf (got ++ bs) { p with queue := queue } writer := by
  have hsent : got ++ bs ++ queue = got ++ p.queue := by rw [List.append_assoc, hsplit]
  have hwrote : ∀ r, Wrote data buf got p r →
      Wrote data buf (got ++ bs) { p with queue := queue } r := by
    rintro r (⟨rfl, hdata⟩ | ⟨-, hfull, -⟩)
    · exact .inl ⟨rfl, hsent.trans hdata⟩
    · exact absurd hfull hshort.ne
  cases writer with
  | running rest => exact ⟨by rw [hsent]; exact h.1, h.2⟩
  | returned r => exact ⟨hwrote r h.1, h.2⟩
  | closed r => exact ⟨hwrote r h.1, h.2⟩

theorem Flows.write {s : Transfer} {rest : Slice} (h : Flows data buf got s)
    (hphase : s.writer = .running rest) {out : Outcome Errno (Pass Slice Unit)} {p' : Pipe} {c : ℕ}
    (hw : Writes s.pipe rest out p' c) : Flows data buf got ⟨p', .after out, s.reader⟩ := by
  obtain ⟨hfits, hwriter, hreader⟩ := h
  rw [hphase] at hwriter
  obtain ⟨hsent, hopen⟩ := hwriter
  cases hw with
  | all hnil =>
    rw [hnil, List.append_nil] at hsent
    exact ⟨hfits, ⟨.inl ⟨rfl, hsent⟩, hopen⟩, hreader⟩
  | @some left bs hne hsplit hr =>
    refine ⟨hfits, ⟨?_, hopen⟩, hreader.push hopen _⟩
    rw [← hsplit] at hsent
    simpa using hsent
  | interrupted => exact ⟨hfits, ⟨hsent, hopen⟩, hreader⟩
  | broken hne hr =>
    exact ⟨hfits, ⟨.inr ⟨rfl, hreader.full _ hr hopen, rest.bytes, hne, hsent⟩, hopen⟩, hreader⟩

theorem Flows.read {s : Transfer} {st : Slice × ℕ} (h : Flows data buf got s)
    (hphase : s.reader = .running st) {out : Outcome Errno (Pass (Slice × ℕ) (Slice × ℕ))}
    {p' : Pipe} {c : ℕ} (hr : Reads s.pipe st out p' c) :
    ∃ got', Flows data buf got' ⟨p', s.writer, .after out⟩ := by
  obtain ⟨hfits, hwriter, hreader⟩ := h
  rw [hphase] at hreader
  obtain ⟨rfl, hopen⟩ := hreader
  cases hr with
  | full hfull =>
    rw [Slice.len_patch] at hfull
    exact ⟨got, hfits, hwriter, rfl, .inl (hfits.antisymm hfull), hopen⟩
  | eof hnil hclosed => exact ⟨got, hfits, hwriter, rfl, .inr ⟨hnil, hclosed⟩, hopen⟩
  | @some queue bs hne hroom hsplit =>
    rw [Slice.len_patch] at hroom
    have hpos := List.length_pos_iff.mpr hne
    refine ⟨got ++ bs, by simpa using hroom, hwriter.pop (by omega) hsplit, ?_, hopen⟩
    rw [Slice.patch_patch hroom, List.length_append]
  | interrupted => exact ⟨got, hfits, hwriter, rfl, hopen⟩

theorem Flows.moves {k : Limits} {s s' : Transfer} {c : ℕ} (h : Flows data buf got s)
    (hstep : Moves k c s s') : ∃ got', Flows data buf got' s' := by
  cases hstep with
  | write hphase hrun hserves => exact ⟨got, h.write hphase (writes_of_pass hrun hserves)⟩
  | closeWriter hphase hrun hserves =>
    rw [(closed_of_close hrun hserves).1, Pipe.closed_write]
    obtain ⟨hfits, hwriter, hreader⟩ := h
    rw [hphase] at hwriter
    refine ⟨got, hfits, ⟨hwriter.1, rfl⟩, ?_⟩
    cases hr : s.reader with
    | running st =>
      rw [hr] at hreader
      exact hreader
    | returned r' =>
      rw [hr] at hreader
      exact ⟨hreader.1, hreader.2.1.imp_right fun h => ⟨h.1, rfl⟩, hreader.2.2⟩
    | closed r' =>
      rw [hr] at hreader
      exact ⟨hreader.1, hreader.2.1.imp_right fun h => ⟨h.1, rfl⟩, hreader.2.2⟩
  | read hphase hrun hserves => exact h.read hphase (reads_of_pass hrun hserves)
  | closeReader hphase hrun hserves =>
    rw [(closed_of_close hrun hserves).1, Pipe.closed_read]
    obtain ⟨hfits, hwriter, hreader⟩ := h
    rw [hphase] at hreader
    refine ⟨got, hfits, ?_, hreader.1, hreader.2.1, rfl⟩
    cases hw : s.writer with
    | running rest =>
      rw [hw] at hwriter
      exact hwriter
    | returned r' =>
      rw [hw] at hwriter
      exact hwriter
    | closed r' =>
      rw [hw] at hwriter
      exact hwriter

theorem flows_of_run {k : Limits} {ret : BitVec 64} {fds : Ends} {s₀ : Transfer}
    (hopen : start data buf ret fds = .ok s₀) {n c : ℕ} {s : Transfer}
    (hrun : Run (Moves k) n c s₀ s) : ∃ got, Flows data buf got s := by
  apply hrun.invariant _ ⟨[], flows_start hopen⟩
  rintro c s t hstep ⟨got, h⟩
  exact h.moves hstep

theorem Flows.wrote {s : Transfer} (h : Flows data buf got s) {r : Outcome Errno Unit}
    (hr : s.writer.result = some r) : Wrote data buf got s.pipe r := by
  have hwriter := h.writer
  cases hw : s.writer with
  | running rest => simp [hw, Phase.result] at hr
  | returned r' =>
    rw [hw] at hr hwriter
    obtain rfl := Option.some.inj hr
    exact hwriter.1
  | closed r' =>
    rw [hw] at hr hwriter
    obtain rfl := Option.some.inj hr
    exact hwriter.1

theorem Flows.begins {s : Transfer} (h : Flows data buf got s) : got <+: data.bytes := by
  cases hr : s.writer.result with
  | some r =>
    rcases h.wrote hr with ⟨-, hdata⟩ | ⟨-, -, left, -, hdata⟩
    · exact ⟨_, hdata⟩
    · exact ⟨_, (List.append_assoc ..).symm.trans hdata⟩
  | none =>
    have hwriter := h.writer
    cases hw : s.writer with
    | running rest =>
      rw [hw] at hwriter
      exact ⟨_, (List.append_assoc ..).symm.trans hwriter.1⟩
    | returned r => simp [hw, Phase.result] at hr
    | closed r => simp [hw, Phase.result] at hr

theorem Flows.got_eq {s : Transfer} (h : Flows data buf got s) (henough : Enough buf got s.pipe) :
    got = data.bytes.take buf.len := by
  have hfull : got.length = buf.len → got = data.bytes.take buf.len := fun hfull => by
    rw [← hfull]
    exact List.prefix_iff_eq_take.mp h.begins
  rcases henough with hlen | ⟨hnil, hclosed⟩
  · exact hfull hlen
  · -- The writer has closed, so it has returned.
    have hwriter := h.writer
    cases hw : s.writer with
    | running rest =>
      rw [hw] at hwriter
      exact absurd (hwriter.2.symm.trans hclosed) (by simp)
    | returned r =>
      rw [hw] at hwriter
      exact absurd (hwriter.2.symm.trans hclosed) (by simp)
    | closed r =>
      rcases h.wrote (r := r) (by rw [hw]; rfl) with ⟨-, hdata⟩ | ⟨-, hlen, -⟩
      · rw [hnil, List.append_nil] at hdata
        rw [← hdata, List.take_of_length_le h.fits]
      · exact hfull hlen

/-- What the writer has still to do is worth twice its bytes, since each of them
has to be read as well. -/
def potential (s : Transfer) : ℕ :=
  (match s.writer with
    | .running rest => 2 * rest.len + 2
    | .returned _ => 1
    | .closed _ => 0) +
  s.pipe.queue.length +
  match s.reader with
  | .running _ => 2
  | .returned _ => 1
  | .closed _ => 0

theorem potential_writes {p p' : Pipe} {rest : Slice} {c : ℕ}
    {out : Outcome Errno (Pass Slice Unit)} (hw : Writes p rest out p' c)
    (reader : Phase (Slice × ℕ) (Slice × ℕ)) :
    potential ⟨p', .after out, reader⟩ + 1 ≤ potential ⟨p, .running rest, reader⟩ + c := by
  cases hw with
  | all hnil =>
    simp only [potential, Phase.after]
    omega
  | @some left bs hne hsplit hr =>
    have hlen := congrArg List.length hsplit
    have hpos := List.length_pos_iff.mpr hne
    rw [List.length_append] at hlen
    simp only [potential, Phase.after, Slice.len, List.length_append]
    omega
  | interrupted =>
    simp only [potential, Phase.after]
    omega
  | broken hne hr =>
    simp only [potential, Phase.after]
    omega

theorem potential_reads {p p' : Pipe} {st : Slice × ℕ} {c : ℕ}
    {out : Outcome Errno (Pass (Slice × ℕ) (Slice × ℕ))} (hr : Reads p st out p' c)
    (writer : Phase Slice Unit) :
    potential ⟨p', writer, .after out⟩ + 1 ≤ potential ⟨p, writer, .running st⟩ + c := by
  cases hr with
  | full hfull =>
    simp only [potential, Phase.after]
    omega
  | eof hnil hclosed =>
    simp only [potential, Phase.after]
    omega
  | @some queue bs hne hroom hsplit =>
    have hlen := congrArg List.length hsplit
    have hpos := List.length_pos_iff.mpr hne
    rw [List.length_append] at hlen
    simp only [potential, Phase.after]
    omega
  | interrupted =>
    simp only [potential, Phase.after]
    omega

theorem Moves.potential_le {k : Limits} {s s' : Transfer} {c : ℕ} (hstep : Moves k c s s') :
    s'.potential + 1 ≤ s.potential + c := by
  obtain ⟨p, writer, reader⟩ := s
  cases hstep with
  | write hphase hrun hserves =>
    obtain rfl : writer = _ := hphase
    exact potential_writes (writes_of_pass hrun hserves) reader
  | closeWriter hphase hrun hserves =>
    obtain rfl : writer = _ := hphase
    rw [(closed_of_close hrun hserves).1, Pipe.closed_write]
    simp only [potential]
    omega
  | read hphase hrun hserves =>
    obtain rfl : reader = _ := hphase
    exact potential_reads (reads_of_pass hrun hserves) writer
  | closeReader hphase hrun hserves =>
    obtain rfl : reader = _ := hphase
    rw [(closed_of_close hrun hserves).1, Pipe.closed_read]
    simp only [potential]
    omega

end Transfer

def eager (k : Limits) : Kernel Pipe
  | .write _ bytes, p =>
    if p.readable then
      (.ok ⟨min bytes.length (k.capacity - p.queue.length), Nat.min_le_left _ _⟩,
        { p with queue := p.queue ++ bytes.take (min bytes.length (k.capacity - p.queue.length)) })
    else (.error .EPIPE, p)
  | .read _ len, p =>
    (.ok ⟨p.queue.take len, List.length_take_le _ _⟩, { p with queue := p.queue.drop len })
  | .openat _ _ _ _, p => (.error .EINVAL, p)
  | .close fd, p => (.ok (), p.closed fd)

theorem writeAllStep_world (kernel : Kernel Pipe) (fd : RawFd) {rest : Slice}
    (hne : rest.bytes ≠ []) (p : Pipe) :
    (writeAllStep kernel fd rest ⟨p, []⟩).2 =
      ⟨(kernel (.write fd rest.bytes) p).2,
        [⟨.write fd rest.bytes, (kernel (.write fd rest.bytes) p).1⟩]⟩ := by
  have hlen : rest.len ≠ 0 := fun h => hne (List.length_eq_zero_iff.mp h)
  rw [writeAllStep, if_neg hlen, Sys.bind_of_ok (Sys.attempt_apply _ _ _)]
  cases (kernel (.write fd rest.bytes) p).1 with
  | ok n =>
    dsimp only
    split_ifs with hzero
    · rfl
    · obtain ⟨left, hleft, -⟩ := Slice.rangeFrom_of_le (ε := Errno) (s := rest) n.property
      rw [hleft]
      rfl
  | error code =>
    dsimp only
    split_ifs
    · rfl
    · rfl

theorem readAllStep_world (kernel : Kernel Pipe) (fd : RawFd) {st : Slice × ℕ}
    (hroom : st.2 < st.1.len) (p : Pipe) : ∃ len, 0 < len ∧
      (readAllStep kernel fd st ⟨p, []⟩).2 =
        ⟨(kernel (.read fd len) p).2, [⟨.read fd len, (kernel (.read fd len) p).1⟩]⟩ := by
  obtain ⟨tail, htail, hlen⟩ := Slice.rangeFrom_room (ε := Errno) hroom.le
  refine ⟨tail.len, by omega, ?_⟩
  rw [readAllStep, if_pos hroom, htail, Sys.bind_of_ok (Sys.lift_apply _ _),
    Sys.bind_of_ok (Sys.attempt_apply _ _ _)]
  cases (kernel (.read fd tail.len) p).1 with
  | ok bs =>
    have hle := bs.property
    have hfits := st.1.len_lt
    dsimp only
    split_ifs with hzero
    · rfl
    · rw [uadd_eq_ok (by omega)]
      rfl
  | error code =>
    dsimp only
    split_ifs
    · rfl
    · rfl

theorem eager_writes (k : Limits) (fd : RawFd) {p : Pipe} {bytes : List UInt8} (hne : bytes ≠ [])
    (hable : p.readable = true → p.queue = []) :
    p.Serves k ⟨.write fd bytes, (eager k (.write fd bytes) p).1⟩
      (eager k (.write fd bytes) p).2 := by
  have hpos := List.length_pos_iff.mpr hne
  have hatomic := k.atomic_pos
  have hcapacity := k.atomic_le
  cases hreader : p.readable with
  | true =>
    have hnil : p.queue.length = 0 := by rw [hable hreader]; rfl
    simp only [eager, hreader, if_true, Pipe.Serves]
    exact ⟨trivial, by omega, by omega, by omega, trivial⟩
  | false =>
    simp only [eager, hreader, Bool.false_eq_true, if_false, Pipe.Serves]
    exact ⟨trivial, .inr ⟨trivial, trivial⟩⟩

theorem eager_reads (k : Limits) (fd : RawFd) {p : Pipe} {len : ℕ} (hlen : 0 < len)
    (hable : p.queue = [] → p.writable = false) :
    p.Serves k ⟨.read fd len, (eager k (.read fd len) p).1⟩ (eager k (.read fd len) p).2 := by
  refine ⟨List.take_append_drop _ _, rfl, fun h => ?_⟩
  have hnil : p.queue = [] := by
    rcases List.take_eq_nil_iff.mp h with hzero | hnil
    · omega
    · exact hnil
  exact ⟨hnil, hable hnil⟩

namespace Transfer

variable {k : Limits} {s : Transfer} {data buf : Slice} {got : List UInt8}

theorem exists_write (k : Limits) {rest : Slice} (hphase : s.writer = .running rest)
    (hable : s.pipe.readable = true → s.pipe.queue = []) : ∃ s', Moves k 0 s s' := by
  rcases hrun : writeAllStep (eager k) s.pipe.ends.write rest ⟨s.pipe, []⟩ with ⟨out, v⟩
  suffices hv : (∀ e ∈ v.trace, s.pipe.Serves k e v.state) ∧ interruptions v.trace = 0 by
    have hstep := Moves.write hphase hrun hv.1
    rw [hv.2] at hstep
    exact ⟨_, hstep⟩
  by_cases hnil : rest.bytes = []
  · have hlen : rest.len = 0 := List.length_eq_zero_iff.mpr hnil
    rw [writeAllStep, if_pos hlen] at hrun
    obtain ⟨-, rfl⟩ := Prod.mk.inj hrun
    exact ⟨by simp, rfl⟩
  · have hworld := writeAllStep_world (eager k) s.pipe.ends.write hnil s.pipe
    rw [hrun] at hworld
    obtain rfl : v = _ := hworld
    refine ⟨?_, ?_⟩
    · intro e he
      obtain rfl := List.mem_singleton.mp he
      exact eager_writes k _ hnil hable
    · rw [interruptions_singleton, if_neg]
      cases hreader : s.pipe.readable with
      | true => simp [eager, hreader, Step.failure]
      | false =>
        simp [eager, hreader, Step.failure]
        decide

theorem exists_read (k : Limits) {st : Slice × ℕ} (hphase : s.reader = .running st)
    (hable : s.pipe.queue = [] → s.pipe.writable = false) : ∃ s', Moves k 0 s s' := by
  rcases hrun : readAllStep (eager k) s.pipe.ends.read st ⟨s.pipe, []⟩ with ⟨out, v⟩
  suffices hv : (∀ e ∈ v.trace, s.pipe.Serves k e v.state) ∧ interruptions v.trace = 0 by
    have hstep := Moves.read hphase hrun hv.1
    rw [hv.2] at hstep
    exact ⟨_, hstep⟩
  by_cases hroom : st.2 < st.1.len
  · obtain ⟨len, hlen, hworld⟩ := readAllStep_world (eager k) s.pipe.ends.read hroom s.pipe
    rw [hrun] at hworld
    obtain rfl : v = _ := hworld
    refine ⟨?_, ?_⟩
    · intro e he
      obtain rfl := List.mem_singleton.mp he
      exact eager_reads k _ hlen hable
    · rw [interruptions_singleton, if_neg]
      simp [eager, Step.failure]
  · rw [readAllStep, if_neg hroom] at hrun
    obtain ⟨-, rfl⟩ := Prod.mk.inj hrun
    exact ⟨by simp, rfl⟩

theorem eager_close (k : Limits) (fd : RawFd) (p : Pipe) :
    ∃ out v, close (eager k) fd ⟨p, []⟩ = (out, v) ∧ (∀ e ∈ v.trace, p.Serves k e v.state) ∧
      interruptions v.trace = 0 := by
  refine ⟨_, _, rfl, fun e he => ?_, rfl⟩
  obtain rfl := List.mem_singleton.mp he
  exact rfl

theorem exists_closeWriter (k : Limits) {r : Outcome Errno Unit} (hphase : s.writer = .returned r) :
    ∃ s', Moves k 0 s s' := by
  obtain ⟨out, v, hrun, hserves, hcost⟩ := eager_close k s.pipe.ends.write s.pipe
  exact ⟨_, hcost ▸ Moves.closeWriter hphase hrun hserves⟩

theorem exists_closeReader (k : Limits) {r : Outcome Errno (Slice × ℕ)}
    (hphase : s.reader = .returned r) : ∃ s', Moves k 0 s s' := by
  obtain ⟨out, v, hrun, hserves, hcost⟩ := eager_close k s.pipe.ends.read s.pipe
  exact ⟨_, hcost ▸ Moves.closeReader hphase hrun hserves⟩

def Finished (s : Transfer) : Prop := (∃ r, s.writer = .closed r) ∧ ∃ r, s.reader = .closed r

theorem Flows.exists_move (h : Flows data buf got s) (k : Limits) :
    Finished s ∨ ∃ s', Moves k 0 s s' := by
  have hwriter := h.writer
  have hreader := h.reader
  cases hr : s.reader with
  | returned r => exact .inr (exists_closeReader k hr)
  | closed r =>
    rw [hr] at hreader
    cases hw : s.writer with
    | returned r' => exact .inr (exists_closeWriter k hw)
    | closed r' => exact .inl ⟨⟨r', hw⟩, r, hr⟩
    | running rest =>
      exact .inr (exists_write k hw fun hopen => absurd (hopen.symm.trans hreader.2.2) (by simp))
  | running st =>
    cases hw : s.writer with
    | returned r' => exact .inr (exists_closeWriter k hw)
    | closed r' =>
      rw [hw] at hwriter
      exact .inr (exists_read k hr fun _ => hwriter.2)
    | running rest =>
      by_cases hnil : s.pipe.queue = []
      · exact .inr (exists_write k hw fun _ => hnil)
      · exact .inr (exists_read k hr fun h => absurd h hnil)

theorem Flows.exists_finish (h : Flows data buf got s) (k : Limits) :
    ∃ n c s', Run (Moves k) n c s s' ∧ Finished s' := by
  induction hp : s.potential using Nat.strong_induction_on generalizing s got with
  | _ m ih =>
    rcases h.exists_move k with hdone | ⟨t, hstep⟩
    · exact ⟨0, 0, s, .nil s, hdone⟩
    · obtain ⟨got', h'⟩ := h.moves hstep
      have hfall := hstep.potential_le
      obtain ⟨n, c, s', hrun, hdone⟩ := ih t.potential (by omega) h' rfl
      exact ⟨n + 1, 0 + c, s', .cons hstep hrun, hdone⟩

def smallPipe : Limits := ⟨3, 2, Nat.zero_lt_two, Nat.le_succ 2⟩

def fourZeros : Slice := ⟨[0, 0, 0, 0], by decide⟩

def threeFour : Ends := ⟨3, 4, by decide⟩

theorem exists_transfer (k : Limits) (data buf : Slice) :
    ∃ s₀ n c s, start data buf 0 threeFour = .ok s₀ ∧ Run (Moves k) n c s₀ s ∧ Finished s := by
  have hopen : start data buf 0 threeFour =
      .ok ⟨⟨threeFour, [], true, true⟩, .running data, .running (buf, 0)⟩ := rfl
  obtain ⟨n, c, s, hrun, hdone⟩ := (flows_start hopen).exists_finish k
  exact ⟨_, n, c, s, hopen, hrun, hdone⟩

end Transfer

end RustyLibc.Fd
