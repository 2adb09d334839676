/-!
Integers of 64 bits, out of integers of any size.
-/

namespace SelectCompiler

def int64? (n : Int) : Option Int64 :=
  if Int64.minValue.toInt ≤ n ∧ n ≤ Int64.maxValue.toInt then some (Int64.ofInt n) else none

theorem int64?_toInt (n : Int64) : int64? n.toInt = some n := by
  have low := n.minValue_le_toInt
  have high := n.toInt_le
  simp_all [int64?]

end SelectCompiler
