import SelectCompiler.Calendar.Date

/-!
Times of day down to the nanosecond, leap seconds included, and dates with a time. A fraction of a
second is written with three, six or nine digits, the fewest that lose nothing.
-/

namespace SelectCompiler

/-- A time of day; second 60 is a leap second. -/
structure TimeOfDay where
  hour : Nat
  minute : Nat
  second : Nat
  nanosecond : Nat
  hour_lt : hour < 24
  minute_lt : minute < 60
  second_le : second ≤ 60
  nanosecond_lt : nanosecond < 1000000000
deriving DecidableEq

structure DateTime where
  date : Date
  time : TimeOfDay
deriving DecidableEq

inductive Fraction where
  /-- Nothing, or the point and the fewest of three, six or nine digits. -/
  | fewest
  /-- The point and three digits; the rest is cut off. -/
  | milliseconds
deriving DecidableEq

namespace TimeOfDay

def of? (hour minute second nanosecond : Nat) : Option TimeOfDay :=
  if hh : hour < 24 then
    if hm : minute < 60 then
      if hs : second ≤ 60 then
        if hn : nanosecond < 1000000000 then some ⟨hour, minute, second, nanosecond, hh, hm, hs, hn⟩
        else none
      else none
    else none
  else none

def fraction (style : Fraction) (nanosecond : Nat) : List Char :=
  match style with
  | .milliseconds => '.' :: fixedDigits 3 (nanosecond / 1000000)
  | .fewest =>
    if nanosecond = 0 then []
    else if nanosecond % 1000000 = 0 then '.' :: fixedDigits 3 (nanosecond / 1000000)
    else if nanosecond % 1000 = 0 then '.' :: fixedDigits 6 (nanosecond / 1000)
    else '.' :: fixedDigits 9 nanosecond

def characters (style : Fraction) (t : TimeOfDay) : List Char :=
  fixedDigits 2 t.hour ++ ':' :: fixedDigits 2 t.minute ++ ':' :: fixedDigits 2 t.second ++
    fraction style t.nanosecond

/-- The digits after the point as nanoseconds, filled up with zeros; digits beyond the ninth are
dropped. -/
def takeFraction : List Char → Option (Nat × List Char)
  | '.' :: cs =>
    match takeDigits cs with
    | ([], _) => none
    | (digits, cs) => some (digitsValue ((digits ++ List.replicate 9 '0').take 9), cs)
  | cs => some (0, cs)

def take (cs : List Char) : Option (TimeOfDay × List Char) := do
  let (hour, cs) ← takeField 2 cs
  let cs ← takeMark ':' cs
  let (minute, cs) ← takeField 2 cs
  let cs ← takeMark ':' cs
  let (second, cs) ← takeField 2 cs
  let (nanosecond, cs) ← takeFraction cs
  let time ← of? hour minute second nanosecond
  return (time, cs)

end TimeOfDay

namespace DateTime

def characters (mark : Char) (style : Fraction) (dt : DateTime) : List Char :=
  dt.date.characters ++ mark :: dt.time.characters style

def text (mark : Char) (dt : DateTime) : String := String.ofList (dt.characters mark .fewest)

/-- Reads a date, `T` and a time that fill the text, white space aside. -/
def ofText? (text : String) : Option DateTime := do
  let (date, cs) ← Date.take text.toList
  let cs ← takeMark 'T' cs
  let (time, cs) ← TimeOfDay.take cs
  if cs.all isBlank then some ⟨date, time⟩ else none

end DateTime

end SelectCompiler
