import SelectCompiler.Json.Basic
import SelectCompiler.Numeral.Int64
import SelectCompiler.Numeral.Reading

/-!
The number that a JSON text writes. Integers of 64 bits are exact. Any other number keeps as many
leading digits as fit into 64 bits and is then scaled by powers of ten, each step rounding to the
nearest float, so that its last bit may differ from the nearest float to the text.
-/

namespace SelectCompiler.Json

/-- Adds digits to a number as long as it fits into 64 bits, and counts those added. -/
def absorb : (n : Nat) → List Char → Nat × Nat
  | n, [] => (n, 0)
  | n, c :: cs =>
    let next := 10 * n + (c.toNat - '0'.toNat)
    if next < UInt64.size then
      let (total, count) := absorb next cs
      (total, count + 1)
    else (n, 0)

/-- The largest power of ten that one step of scaling takes. -/
def largestPower : Nat := 308

def powerOfTen (k : Nat) : Binary64 := Binary64.ofDecimal false 1 k

/-- Multiplies or divides by a power of ten; nothing if the result is too large. -/
def scale (x : Binary64) (exponent : Int) : Option Binary64 :=
  if x.magnitude = 0 then some x
  else if 0 ≤ exponent then
    if exponent ≤ largestPower then
      let y := x.mul (powerOfTen exponent.toNat)
      if y.isFinite then some y else none
    else none
  else
    let k := (-exponent).toNat
    if k ≤ largestPower then some (x.div (powerOfTen k))
    else if k ≤ 2 * largestPower then
      some ((x.div (powerOfTen largestPower)).div (powerOfTen (k - largestPower)))
    else some (Binary64.ofSign false 0)

/-- The value of a written number; `none` for an exponent means that none is written, and so for a
fraction. -/
def ofNumber (negative : Bool) (whole : List Char) (fraction : Option (List Char))
    (exponent : Option Int) : Json :=
  let (n, kept) := absorb 0 whole
  let dropped := whole.length - kept
  match fraction, exponent, dropped with
  | none, none, 0 =>
    if !negative then .int n
    else if 0 < n ∧ (int64? (-n)).isSome then .int (-n)
    else .float (Binary64.ofRatio true n 1)
  | _, _, _ =>
    let (n, places) := absorb n (fraction.getD [])
    match scale (Binary64.ofRatio false n 1) (exponent.getD 0 + dropped - places) with
    | some x => .float (Binary64.ofSign negative x.magnitude)
    | none => .unreadable

end SelectCompiler.Json
