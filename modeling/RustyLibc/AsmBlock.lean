import Mathlib.Data.Nat.Basic

/-!
# Numeric local labels

An inline assembly block is a list of lines in source order, labels being lines
of their own. A numeric label may be defined several times; a jump names the
next definition after it, `1f`, or the last one before it, `1b`.
-/

namespace RustyLibc.AsmBlock

inductive Way where
  | f | b
  deriving DecidableEq, Repr

def resolve {ι : Type} [BEq ι] (prog : List ι) (target : ι) (pc : ℕ) : Way → ℕ
  | .f => pc + 1 + (prog.drop (pc + 1)).findIdx (· == target)
  | .b => pc - 1 - ((prog.take pc).reverse.findIdx (· == target))

end RustyLibc.AsmBlock
