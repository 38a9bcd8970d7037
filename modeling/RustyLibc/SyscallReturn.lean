import RustyLibc.Errno
import RustyLibc.LinuxKernel

/-!
# What a system call leaves in the result register

A call that succeeds returns a number below `2 ^ 63`, one that fails returns
`-errno`. `from_ret` tells them apart, and most wrappers of `process.rs` keep
nothing but that: `unitRet` is `from_ret(ret).map(|_| ())`.
-/

namespace RustyLibc
open Linux

def countRet (n : ℕ) : BitVec 64 := BitVec.ofNat 64 n

def unitRet (ret : BitVec 64) : Except Errno Unit := (fromRet ret).map fun _ => ()

def SysErr.errno (e : SysErr) : Errno := ⟨e.code⟩

theorem fromRet_raw (e : SysErr) : fromRet e.raw = .error (SysErr.errno e) := by
  have hpos := e.code_pos
  have hle := e.code_le
  have hrange : -errnoMax ≤ -(e.code : Int) ∧ -(e.code : Int) < 0 := by
    unfold errnoMax
    omega
  rw [fromRet, e.toInt_raw, if_pos hrange, Int.neg_neg]
  rfl

theorem toNat_countRet {n : ℕ} (h : n < 2 ^ 63) : (countRet n).toNat = n := by
  rw [countRet, BitVec.toNat_ofNat, Nat.mod_eq_of_lt (by omega)]

theorem fromRet_countRet {n : ℕ} (h : n < 2 ^ 63) : fromRet (countRet n) = .ok (countRet n) := by
  have hnat := toNat_countRet h
  have hint : (countRet n).toInt = n := by
    rw [BitVec.toInt_eq_toNat_of_lt (by omega), hnat]
  rw [fromRet, hint, if_neg (by omega)]

theorem unitRet_raw (e : SysErr) : unitRet e.raw = .error (SysErr.errno e) := by
  rw [unitRet, fromRet_raw]
  rfl

theorem unitRet_zero : unitRet 0 = .ok () := rfl

theorem fromRetI32_setWidth (fd : BitVec 32) : fromRetI32 (fd.setWidth 64) = .ok fd := by
  have hmsb := msb_fd fd
  have hnonneg : 0 ≤ (fd.setWidth 64).toInt := by
    rw [BitVec.msb_eq_toInt] at hmsb
    simpa using hmsb
  rw [fromRetI32, fromRet, if_neg (by omega)]
  simp [Except.map]

theorem fromRetI32_raw (e : SysErr) : fromRetI32 e.raw = .error (SysErr.errno e) := by
  rw [fromRetI32, fromRet_raw]
  rfl

end RustyLibc
