import Mathlib.Data.Nat.Basic

/-!
# Errno values and the raw return-value decode (`arch/mod.rs`)

The kernel reports failure as `-errno` in `[-4095, -1]`. `fromRet` is the only
place where a raw register value becomes a `Result`.
-/

namespace RustyLibc

structure Errno where
  code : Int
  deriving DecidableEq, Repr

namespace Errno

def EPERM : Errno := ⟨1⟩
def ENOENT : Errno := ⟨2⟩
def EINTR : Errno := ⟨4⟩
def EIO : Errno := ⟨5⟩
def ECHILD : Errno := ⟨10⟩
def EAGAIN : Errno := ⟨11⟩
def EINVAL : Errno := ⟨22⟩
def ENOTTY : Errno := ⟨25⟩
def EPIPE : Errno := ⟨32⟩
def ERANGE : Errno := ⟨34⟩
def ETIMEDOUT : Errno := ⟨110⟩

end Errno

def errnoMax : Int := 4095

/-- `from_ret`: a raw result register is an error exactly when, read as a
signed word, it lies in `[-4095, -1]`. -/
def fromRet (ret : BitVec 64) : Except Errno (BitVec 64) :=
  let signed := ret.toInt
  if -errnoMax ≤ signed ∧ signed < 0 then .error ⟨-signed⟩ else .ok ret

def fromRetI32 (ret : BitVec 64) : Except Errno (BitVec 32) :=
  (fromRet ret).map (BitVec.setWidth 32)

end RustyLibc
