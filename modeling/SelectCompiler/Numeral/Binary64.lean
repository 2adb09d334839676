/-!
Binary floating-point numbers of 64 bits, held as their bit pattern. Every operation is exact
integer arithmetic followed by one rounding to the nearest number, a tie going to the even one.
-/

namespace SelectCompiler

/-- A sign bit, eleven bits of exponent and fifty-two bits of fraction. -/
structure Binary64 where
  bits : UInt64
deriving DecidableEq

namespace Binary64

def signWeight : Nat := 0x8000000000000000

/-- The weight of the leading bit of the significand, which the bits leave out. -/
def leadWeight : Nat := 0x10000000000000

/-- The magnitude at which numbers end: all exponent bits set, no fraction. -/
def infiniteMagnitude : Nat := 0x7FF0000000000000

/-- A sign and the sixty-three bits below it. -/
def ofSign (negative : Bool) (magnitude : Nat) : Binary64 :=
  ⟨UInt64.ofNat ((if negative then signWeight else 0) + magnitude)⟩

def nan (negative : Bool) : Binary64 := ofSign negative (infiniteMagnitude + leadWeight / 2)

def infinity (negative : Bool) : Binary64 := ofSign negative infiniteMagnitude

/-- Whether the sign bit is set, which also holds of minus zero. -/
def isNegative (x : Binary64) : Bool := decide (signWeight ≤ x.bits.toNat)

def magnitude (x : Binary64) : Nat := x.bits.toNat % signWeight

def isFinite (x : Binary64) : Bool := decide (x.magnitude < infiniteMagnitude)

def isNaN (x : Binary64) : Bool := decide (infiniteMagnitude < x.magnitude)

/-- The integer `m` of the absolute value `m * 2 ^ q`. -/
def significand (x : Binary64) : Nat :=
  if x.magnitude < leadWeight then x.magnitude else leadWeight + x.magnitude % leadWeight

/-- The integer `q` of the absolute value `m * 2 ^ q`. -/
def exponent (x : Binary64) : Int := max 1 (x.magnitude / leadWeight : Nat) - 1075

/-- The absolute value of a finite number as numerator and denominator. -/
def ratio (x : Binary64) : Nat × Nat :=
  (x.significand <<< x.exponent.toNat, 1 <<< (-x.exponent).toNat)

/-- Whether a finite number has no fractional part. -/
def isWhole (x : Binary64) : Bool := x.ratio.1 % x.ratio.2 == 0

/-- The nearest integer to `num / den`, a half going to the even neighbour. -/
def nearest (num den : Nat) : Nat :=
  let quotient := num / den
  let twice := 2 * (num % den)
  if twice < den then quotient
  else if den < twice then quotient + 1
  else quotient + quotient % 2

/-- The magnitude nearest to `num / den`; it is infinite from half a step above the largest number
on. -/
def nearestMagnitude (num den : Nat) : Nat :=
  if num = 0 then 0
  else
    let rough : Int := (num.log2 : Int) - den.log2 - 52
    let small := num <<< (-rough).toNat < (den <<< rough.toNat) * leadWeight
    let step := max (-1074) (if small then rough - 1 else rough)
    let count := nearest (num <<< (-step).toNat) (den <<< step.toNat)
    min infiniteMagnitude ((step + 1074).toNat * leadWeight + count)

/-- The number nearest to plus or minus `num / den`. -/
def ofRatio (negative : Bool) (num den : Nat) : Binary64 :=
  ofSign negative (nearestMagnitude num den)

def ofInt (n : Int) : Binary64 := ofRatio (n < 0) n.natAbs 1

/-- The number nearest to plus or minus `digits * 10 ^ exponent`. -/
def ofDecimal (negative : Bool) (digits : Nat) (exponent : Int) : Binary64 :=
  ofRatio negative (digits * Nat.pow 10 exponent.toNat) (Nat.pow 10 (-exponent).toNat)

/-- The rounded product of the absolute values, without a sign. -/
def mul (x y : Binary64) : Binary64 :=
  ofRatio false (x.ratio.1 * y.ratio.1) (x.ratio.2 * y.ratio.2)

/-- The rounded quotient of the absolute values, without a sign. -/
def div (x y : Binary64) : Binary64 :=
  ofRatio false (x.ratio.1 * y.ratio.2) (x.ratio.2 * y.ratio.1)

end Binary64

end SelectCompiler
