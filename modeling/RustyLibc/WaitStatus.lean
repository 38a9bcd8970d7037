import Mathlib.Data.Nat.Bitwise
import Mathlib.Data.BitVec

/-!
# Wait statuses (`wait.rs`, `ptrace.rs`)

`Change` is what can happen to a child, and `encode` the word in which the kernel
reports it: the bytes of the word from the top are the number of a ptrace event,
the exit code or the stopping signal, and the terminating signal with the flag of
a core dump. The helpers of the source are bit tests on the word; `>>` on an
`i32` copies the sign.
-/

namespace RustyLibc.Wait

def wifexited (status : BitVec 32) : Bool := status &&& 0x7f == 0

def wexitstatus (status : BitVec 32) : BitVec 32 := status.sshiftRight 8 &&& 0xff

def wifsignaled (status : BitVec 32) : Bool :=
  let sig := status &&& 0x7f
  sig != 0 && sig != 0x7f

def wtermsig (status : BitVec 32) : BitVec 32 := status &&& 0x7f

def wifstopped (status : BitVec 32) : Bool := status &&& 0xff == 0x7f

def wstopsig (status : BitVec 32) : BitVec 32 := status.sshiftRight 8 &&& 0xff

def wifcontinued (status : BitVec 32) : Bool := status == 0xffff

def sigtrap : BitVec 32 := 5

def isSyscallStop (status : BitVec 32) : Bool :=
  wifstopped status && wstopsig status == sigtrap ||| 0x80

inductive Change where
  | exited (code : BitVec 8)
  | killed (sig : BitVec 7) (hsig : sig ≠ 0 ∧ sig ≠ 0x7f) (core : Bool)
  | stopped (sig : BitVec 8) (event : BitVec 16)
  | continued
  deriving DecidableEq

def word (event : BitVec 16) (code low : BitVec 8) : BitVec 32 := event ++ code ++ low

def encode : Change → BitVec 32
  | .exited code => word 0 code 0
  | .killed sig _ core => word 0 0 (BitVec.ofBool core ++ sig)
  | .stopped sig event => word event sig 0x7f
  | .continued => word 0 0xff 0xff

theorem toNat_word (event : BitVec 16) (code low : BitVec 8) :
    (word event code low).toNat = event.toNat * 65536 + code.toNat * 256 + low.toNat := by
  have hcode := code.isLt
  have hlow := low.isLt
  rw [word, BitVec.toNat_append, BitVec.toNat_append, ← Nat.shiftLeft_add_eq_or_of_lt hlow,
    ← Nat.shiftLeft_add_eq_or_of_lt hcode, Nat.shiftLeft_eq, Nat.shiftLeft_eq]
  omega

theorem exists_word (status : BitVec 32) : ∃ event code low, status = word event code low := by
  have hlt := status.isLt
  refine ⟨.ofNat 16 (status.toNat / 65536), .ofNat 8 (status.toNat / 256), .ofNat 8 status.toNat, ?_⟩
  apply BitVec.eq_of_toNat_eq
  rw [toNat_word, BitVec.toNat_ofNat, BitVec.toNat_ofNat, BitVec.toNat_ofNat]
  omega

section Helpers

variable (event : BitVec 16) (code low : BitVec 8)

theorem low_seven : (word event code low &&& 0x7f).toNat = low.toNat % 128 := by
  have hmask : (0x7f : BitVec 32).toNat = 2 ^ 7 - 1 := rfl
  rw [BitVec.toNat_and, hmask, Nat.and_two_pow_sub_one_eq_mod, toNat_word]
  omega

theorem low_byte : word event code low &&& 0xff = low.setWidth 32 := by
  have hmask : (0xff : BitVec 32).toNat = 2 ^ 8 - 1 := rfl
  have hlow := low.isLt
  apply BitVec.eq_of_toNat_eq
  rw [BitVec.toNat_and, hmask, Nat.and_two_pow_sub_one_eq_mod, toNat_word, BitVec.toNat_setWidth]
  omega

theorem second_byte : (word event code low).sshiftRight 8 &&& 0xff = code.setWidth 32 := by
  have hmask : (0xff : BitVec 32).toNat = 2 ^ 8 - 1 := rfl
  have hevent := event.isLt
  have hcode := code.isLt
  have hlow := low.isLt
  apply BitVec.eq_of_toNat_eq
  rw [BitVec.toNat_and, hmask, Nat.and_two_pow_sub_one_eq_mod, BitVec.toNat_sshiftRight,
    Nat.shiftRight_eq_div_pow, Nat.shiftRight_eq_div_pow, toNat_word, BitVec.toNat_setWidth]
  split
  · omega
  · omega

theorem wifexited_word : wifexited (word event code low) = decide (low.toNat % 128 = 0) := by
  rw [wifexited, Bool.eq_iff_iff, beq_iff_eq, decide_eq_true_eq, ← low_seven event code low,
    ← BitVec.toNat_inj]
  rfl

theorem wifsignaled_word : wifsignaled (word event code low) =
    decide (low.toNat % 128 ≠ 0 ∧ low.toNat % 128 ≠ 127) := by
  have h₀ : word event code low &&& 0x7f ≠ 0 ↔ low.toNat % 128 ≠ 0 := by
    rw [← low_seven event code low, ne_eq, ← BitVec.toNat_inj]
    rfl
  have h₁ : word event code low &&& 0x7f ≠ 0x7f ↔ low.toNat % 128 ≠ 127 := by
    rw [← low_seven event code low, ne_eq, ← BitVec.toNat_inj]
    rfl
  rw [Bool.eq_iff_iff, decide_eq_true_eq, ← h₀, ← h₁]
  simp [wifsignaled]

theorem wifstopped_word : wifstopped (word event code low) = decide (low = 0x7f) := by
  rw [wifstopped, low_byte, Bool.eq_iff_iff, beq_iff_eq, decide_eq_true_eq]
  have hlow := low.isLt
  constructor
  · intro h
    have hnat := congrArg BitVec.toNat h
    rw [BitVec.toNat_setWidth] at hnat
    apply BitVec.eq_of_toNat_eq
    change low.toNat = 127
    change low.toNat % 2 ^ 32 = 127 at hnat
    omega
  · rintro rfl
    rfl

theorem wifcontinued_word : wifcontinued (word event code low) =
    decide (event = 0 ∧ code = 0xff ∧ low = 0xff) := by
  have hcode := code.isLt
  have hlow := low.isLt
  rw [wifcontinued, Bool.eq_iff_iff, beq_iff_eq, decide_eq_true_eq, ← BitVec.toNat_inj, toNat_word,
    ← BitVec.toNat_inj, ← BitVec.toNat_inj, ← BitVec.toNat_inj]
  change _ = 65535 ↔ _ = 0 ∧ _ = 255 ∧ _ = 255
  omega

end Helpers

inductive Kind where
  | exited
  | signaled
  | stopped
  | continued
  deriving DecidableEq, Repr

def Change.kind : Change → Kind
  | .exited _ => .exited
  | .killed _ _ _ => .signaled
  | .stopped _ _ => .stopped
  | .continued => .continued

/-- The test for a kind. -/
def Kind.test : Kind → BitVec 32 → Bool
  | .exited => wifexited
  | .signaled => wifsignaled
  | .stopped => wifstopped
  | .continued => wifcontinued

theorem toNat_termByte (core : Bool) (sig : BitVec 7) :
    (BitVec.ofBool core ++ sig).toNat % 128 = sig.toNat := by
  have hsig := sig.isLt
  rw [BitVec.toNat_append, ← Nat.shiftLeft_add_eq_or_of_lt hsig, Nat.shiftLeft_eq]
  omega

/-- What a test says about the lowest byte. -/
def Kind.Low : Kind → ℕ → Prop
  | .exited, n => n % 128 = 0
  | .signaled, n => n % 128 ≠ 0 ∧ n % 128 ≠ 127
  | .stopped, n => n = 127
  | .continued, n => n = 255

theorem low_of_test {event : BitVec 16} {code low : BitVec 8} {k : Kind}
    (h : k.test (word event code low) = true) : k.Low low.toNat := by
  cases k with
  | exited =>
    have hlow := of_decide_eq_true ((wifexited_word event code low).symm.trans h)
    exact hlow
  | signaled =>
    have hlow := of_decide_eq_true ((wifsignaled_word event code low).symm.trans h)
    exact hlow
  | stopped =>
    have hlow := of_decide_eq_true ((wifstopped_word event code low).symm.trans h)
    exact congrArg BitVec.toNat hlow
  | continued =>
    have hall := of_decide_eq_true ((wifcontinued_word event code low).symm.trans h)
    exact congrArg BitVec.toNat hall.2.2

theorem Kind.Low.unique {k k' : Kind} {n : ℕ} (h : k.Low n) (h' : k'.Low n) : k = k' := by
  cases k <;> cases k' <;> simp only [Kind.Low] at h h' <;> first | rfl | omega

theorem test_kind (c : Change) : c.kind.test (encode c) = true := by
  cases c with
  | exited code => exact (wifexited_word 0 code 0).trans rfl
  | killed sig hsig core =>
    refine (wifsignaled_word 0 0 _).trans (decide_eq_true ?_)
    rw [toNat_termByte]
    exact ⟨fun h => hsig.1 (BitVec.eq_of_toNat_eq h), fun h => hsig.2 (BitVec.eq_of_toNat_eq h)⟩
  | stopped sig event => exact (wifstopped_word event sig 0x7f).trans rfl
  | continued => rfl

/-- What the accessor of its kind gives for a change. -/
def Change.Read (status : BitVec 32) : Change → Prop
  | .exited code => wexitstatus status = code.setWidth 32
  | .killed sig _ _ => wtermsig status = sig.setWidth 32
  | .stopped sig _ => wstopsig status = sig.setWidth 32 ∧
      isSyscallStop status = decide (sig = 0x85)
  | .continued => True

theorem read_encode (c : Change) : c.Read (encode c) := by
  cases c with
  | exited code => exact second_byte 0 code 0
  | killed sig hsig core =>
    have hlt := sig.isLt
    apply BitVec.eq_of_toNat_eq
    rw [wtermsig, encode, low_seven, toNat_termByte, BitVec.toNat_setWidth]
    omega
  | stopped sig event =>
    refine ⟨second_byte event sig 0x7f, ?_⟩
    have hlt := sig.isLt
    have hstop : wifstopped (word event sig 0x7f) = true := (wifstopped_word event sig 0x7f).trans rfl
    rw [isSyscallStop, encode, hstop, wstopsig, second_byte, Bool.true_and, Bool.eq_iff_iff,
      beq_iff_eq, decide_eq_true_eq, ← BitVec.toNat_inj, ← BitVec.toNat_inj, BitVec.toNat_setWidth]
    change _ = 133 ↔ _ = 133
    omega
  | continued => trivial

/-- Of no word do two tests hold; of the word of a change its own test holds and no
other, and the accessor that goes with it gives back what happened. -/
theorem helpers_decode :
    (∀ status (k k' : Kind), k.test status = true → k'.test status = true → k = k') ∧
    ∀ c : Change, (∀ k : Kind, k.test (encode c) = true ↔ k = c.kind) ∧ c.Read (encode c) := by
  have hunique : ∀ status (k k' : Kind), k.test status = true → k'.test status = true →
      k = k' := by
    intro status k k' h h'
    obtain ⟨event, code, low, rfl⟩ := exists_word status
    exact (low_of_test h).unique (low_of_test h')
  refine ⟨hunique, fun c => ⟨fun k => ?_, read_encode c⟩⟩
  constructor
  · exact fun h => hunique _ k c.kind h (test_kind c)
  · rintro rfl
    exact test_kind c

end RustyLibc.Wait
