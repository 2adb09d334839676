import SelectCompiler.Numeral.Binary64
import SelectCompiler.Text.Digits

/-!
Decimal text of binary numbers: the fewest digits that read back as the number, laid out with or
without an exponent as a `Layout` says.
-/

namespace SelectCompiler

/-- The value `0.d₁d₂… * 10 ^ point`. -/
structure Decimal where
  digits : List Char
  point : Int

/-- Which of two equally near and equally short decimals stands for a number. -/
inductive Tie where
  | up
  | even
deriving DecidableEq

namespace Binary64

/-- The numbers that read as a given one lie between `low / unit` and `high / unit`. -/
structure Interval where
  low : Nat
  middle : Nat
  high : Nat
  unit : Nat
  closed : Bool

/-- Half a step to either side; the step below a power of two is half as wide. -/
def interval (x : Binary64) : Interval :=
  let scale := 1 <<< x.exponent.toNat
  let below := if x.significand = leadWeight ∧ 2 * leadWeight ≤ x.magnitude then 1 else 2
  { low := (4 * x.significand - below) * scale
    middle := 4 * x.significand * scale
    high := (4 * x.significand + 2) * scale
    unit := 4 <<< (-x.exponent).toNat
    closed := x.significand % 2 == 0 }

def Interval.holds (i : Interval) (num den : Nat) : Bool :=
  if i.closed then i.low * den ≤ num * i.unit && num * i.unit ≤ i.high * den
  else i.low * den < num * i.unit && num * i.unit < i.high * den

/-- The multiple of `10 ^ power` inside the interval that is nearest to its middle. -/
def Interval.onGrid (i : Interval) (tie : Tie) (power : Int) : Option Nat :=
  let up := Nat.pow 10 power.toNat
  let down := Nat.pow 10 (-power).toNat
  let count := i.middle * down / (i.unit * up)
  let lower := i.holds (count * up) down
  let upper := i.holds ((count + 1) * up) down
  let twice := 2 * (i.middle * down % (i.unit * up))
  match lower, upper with
  | false, false => none
  | true, false => some count
  | false, true => some (count + 1)
  | true, true =>
    if twice < i.unit * up then some count
    else if i.unit * up < twice then some (count + 1)
    else match tie with
      | .up => some (count + 1)
      | .even => some (count + count % 2)

/-- The coarsest decimal grid from `power` on downwards with a point in the interval. -/
def Interval.coarsest (i : Interval) (tie : Tie) : Nat → Int → Nat × Int
  | 0, power => (0, power)
  | steps + 1, power =>
    match i.onGrid tie power with
    | some count => if count = 0 then i.coarsest tie steps (power - 1) else (count, power)
    | none => i.coarsest tie steps (power - 1)

/-- The shortest decimal that reads back as the absolute value of a finite number, and of those
the nearest. -/
def shortest (tie : Tie) (x : Binary64) : Decimal :=
  if x.magnitude = 0 then ⟨['0'], 1⟩
  else
    let (count, power) := x.interval.coarsest tie 653 309
    let digits := decimalDigits count
    ⟨digits, power + digits.length⟩

end Binary64

structure Layout where
  /-- The least position of the point, counted from before the first digit, without an exponent. -/
  lowest : Option Int
  highest : Option Int
  /-- Whether a whole number written without exponent ends in `.0`. -/
  pointZero : Bool
  /-- Whether a plus sign stands before a positive exponent. -/
  exponentPlus : Bool
  tie : Tie

namespace Layout

/-- Every digit is written out, whole numbers without a point. -/
def plain : Layout := ⟨none, none, false, false, .up⟩

/-- An exponent below one ten-thousandth and from ten to the sixteenth on. -/
def scientific : Layout := ⟨some (-3), some 16, true, false, .up⟩

/-- The layout of numbers in JSON text: an exponent below one hundred-thousandth and from ten to the
sixteenth on, with its sign. -/
def json : Layout := ⟨some (-4), some 16, true, true, .even⟩

def zeros (n : Nat) : List Char := List.replicate n '0'

def positional (l : Layout) (d : Decimal) : List Char :=
  if d.point ≤ 0 then '0' :: '.' :: zeros (-d.point).toNat ++ d.digits
  else if d.digits.length ≤ d.point.toNat then
    d.digits ++ zeros (d.point.toNat - d.digits.length) ++ (if l.pointZero then ['.', '0'] else [])
  else d.digits.take d.point.toNat ++ '.' :: d.digits.drop d.point.toNat

def exponential (l : Layout) (d : Decimal) : List Char :=
  d.digits.take 1 ++ (if d.digits.length ≤ 1 then [] else '.' :: d.digits.drop 1) ++
    'e' :: (if l.exponentPlus ∧ 0 < d.point then ['+'] else []) ++ (toString (d.point - 1)).toList

def isPositional (l : Layout) (d : Decimal) : Bool :=
  (match l.lowest with | none => true | some k => decide (k ≤ d.point)) &&
  (match l.highest with | none => true | some k => decide (d.point ≤ k))

def characters (l : Layout) (x : Binary64) : List Char :=
  let d := x.shortest l.tie
  (if x.isNegative then ['-'] else []) ++
    (if l.isPositional d then l.positional d else l.exponential d)

/-- The text of any number; what is not finite has a name of its own. -/
def text (l : Layout) (x : Binary64) : String :=
  if x.isFinite then String.ofList (l.characters x)
  else if x.isNaN then "NaN"
  else if x.isNegative then "-inf" else "inf"

end Layout

end SelectCompiler
