import SelectCompiler.Text.Blank
import SelectCompiler.Text.Digits

/-!
Dates of the Gregorian calendar, extended before its introduction and with a year zero. A date is
written `year-month-day`; a year outside `0 … 9999` carries its sign.
-/

namespace SelectCompiler

/-- Every fourth year, but of the full centuries only every fourth. -/
def isLeapYear (year : Int) : Bool := year % 4 == 0 && (year % 100 != 0 || year % 400 == 0)

def daysInMonth (year : Int) (month : Nat) : Nat :=
  if month = 2 then (if isLeapYear year then 29 else 28)
  else if month = 4 ∨ month = 6 ∨ month = 9 ∨ month = 11 then 30
  else 31

/-- A day that the calendar has. -/
structure Date where
  year : Int
  month : Nat
  day : Nat
  year_range : -262143 ≤ year ∧ year ≤ 262142
  month_range : 1 ≤ month ∧ month ≤ 12
  day_range : 1 ≤ day ∧ day ≤ daysInMonth year month
deriving DecidableEq

namespace Date

def of? (year : Int) (month day : Nat) : Option Date :=
  if hy : -262143 ≤ year ∧ year ≤ 262142 then
    if hm : 1 ≤ month ∧ month ≤ 12 then
      if hd : 1 ≤ day ∧ day ≤ daysInMonth year month then some ⟨year, month, day, hy, hm, hd⟩
      else none
    else none
  else none

/-- Four digits, or a sign and at least four. -/
def yearText (year : Int) : List Char :=
  if 0 ≤ year ∧ year ≤ 9999 then fixedDigits 4 year.toNat
  else (if year < 0 then '-' else '+') ::
    (if year.natAbs ≤ 9999 then fixedDigits 4 year.natAbs else decimalDigits year.natAbs)

def characters (d : Date) : List Char :=
  yearText d.year ++ '-' :: fixedDigits 2 d.month ++ '-' :: fixedDigits 2 d.day

def text (d : Date) : String := String.ofList d.characters

end Date

/-! ### Reading -/

/-- One to `width` digits after white space; further digits are left. -/
def takeField (width : Nat) (cs : List Char) : Option (Nat × List Char) :=
  let cs := trimStart cs
  match (cs.take width).takeWhile Char.isDigit with
  | [] => none
  | digits => some (digitsValue digits, cs.drop digits.length)

def takeMark (mark : Char) (cs : List Char) : Option (List Char) :=
  match trimStart cs with
  | c :: cs => if c = mark then some cs else none
  | [] => none

/-- A year: any number of digits after a sign, at most four without one. -/
def takeYear (cs : List Char) : Option (Int × List Char) :=
  match takeSign (trimStart cs) with
  | (none, cs) => (takeField 4 cs).map fun (n, cs) => ((n : Int), cs)
  | (some sign, cs) =>
    match takeDigits cs with
    | ([], _) => none
    | (digits, cs) =>
      let n : Int := digitsValue digits
      some (if sign = '-' then -n else n, cs)

def Date.take (cs : List Char) : Option (Date × List Char) := do
  let (year, cs) ← takeYear cs
  let cs ← takeMark '-' cs
  let (month, cs) ← takeField 2 cs
  let cs ← takeMark '-' cs
  let (day, cs) ← takeField 2 cs
  let date ← Date.of? year month day
  return (date, cs)

/-- Reads a date that fills the text, white space aside. -/
def Date.ofText? (text : String) : Option Date :=
  match Date.take text.toList with
  | some (date, cs) => if cs.all isBlank then some date else none
  | none => none

end SelectCompiler
