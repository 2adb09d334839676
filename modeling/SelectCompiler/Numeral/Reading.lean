import SelectCompiler.Numeral.Binary64
import SelectCompiler.Text.Digits

/-!
Reading numbers from decimal text. `Binary64.ofText?` gives the nearest number to the decimal that
is written.
-/

namespace SelectCompiler

/-- A decimal as it is written: `±whole.fraction e exponent`. -/
structure Scientific where
  negative : Bool
  whole : List Char
  fraction : List Char
  exponent : Int

namespace Binary64

/-- The nearest number; far beyond either end of the range the digits do not matter. -/
def ofScientific (s : Scientific) : Binary64 :=
  let digits := digitsValue (s.whole ++ s.fraction)
  let power := s.exponent - s.fraction.length
  let point := power + (decimalDigits digits).length
  if digits = 0 ∨ point < -400 then ofSign s.negative 0
  else if 400 < point then infinity s.negative
  else ofDecimal s.negative digits power

/-- The exponent after the digits of a decimal: nothing, or `e`, a sign and digits. -/
def exponentOf? : List Char → Option Int
  | [] => some 0
  | c :: cs =>
    if c = 'e' ∨ c = 'E' then
      let (sign, digits) := takeSign cs
      if digits ≠ [] ∧ digits.all Char.isDigit then
        some (if sign = some '-' then -(digitsValue digits : Int) else digitsValue digits)
      else none
    else none

/-- Reads `inf`, `infinity` and `nan` in any case, and decimals with a digit on either side of the
point. -/
def ofText? (text : String) : Option Binary64 :=
  let (sign, cs) := takeSign text.toList
  let negative := sign = some '-'
  let name := String.ofList (cs.map Char.toLower)
  if name = "inf" ∨ name = "infinity" then some (infinity negative)
  else if name = "nan" then some (nan negative)
  else
    let (whole, cs) := takeDigits cs
    let (fraction, cs) := match cs with
      | '.' :: cs => takeDigits cs
      | cs => ([], cs)
    if whole = [] ∧ fraction = [] then none
    else (exponentOf? cs).map fun e => ofScientific ⟨negative, whole, fraction, e⟩

end Binary64

end SelectCompiler
