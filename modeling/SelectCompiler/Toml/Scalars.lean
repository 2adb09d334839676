import SelectCompiler.Calendar.Date
import SelectCompiler.Numeral.Int64
import SelectCompiler.Numeral.Reading

/-!
Numbers, dates and times of a TOML document. They are checked and passed over: nothing depends on
which one is written.
-/

namespace SelectCompiler.Toml

/-! ### Numbers -/

/-- Digits of a class, an underscore between two of them being left out. -/
def takeGroups (isDigit : Char → Bool) : List Char → List Char × List Char
  | '_' :: c :: cs =>
    if isDigit c then
      let (digits, rest) := takeGroups isDigit cs
      (c :: digits, rest)
    else ([], '_' :: c :: cs)
  | c :: cs =>
    if isDigit c then
      let (digits, rest) := takeGroups isDigit cs
      (c :: digits, rest)
    else ([], c :: cs)
  | [] => ([], [])

/-- Digits that do not start with an underscore. -/
def takeDigitGroups (isDigit : Char → Bool) (cs : List Char) : Option (List Char × List Char) :=
  match cs with
  | '_' :: _ => none
  | cs =>
    match takeGroups isDigit cs with
    | ([], _) => none
    | (digits, cs) => some (digits, cs)

/-- The rest of a text behind an integer of 64 bits in another base. -/
def takeBased (base : Nat) (isDigit : Char → Bool) (cs : List Char) : Option (List Char) := do
  let (digits, cs) ← takeDigitGroups isDigit cs
  let n := digits.foldl (fun n c => base * n + (hexValue? c).getD 0) 0
  if (int64? n).isSome then some cs else none

def takeFraction : List Char → Option (Option (List Char) × List Char)
  | '.' :: cs => (takeDigitGroups Char.isDigit cs).map fun (digits, cs) => (some digits, cs)
  | cs => some (none, cs)

def takeExponent : List Char → Option (Option Int × List Char)
  | [] => some (none, [])
  | c :: cs =>
    if c = 'e' ∨ c = 'E' then
      let (sign, cs) := takeSign cs
      (takeDigitGroups Char.isDigit cs).map fun (digits, cs) =>
        let n : Int := digitsValue digits
        (some (if sign = some '-' then -n else n), cs)
    else some (none, c :: cs)

/-- The rest of a text behind a decimal number: an integer of 64 bits, or with a fraction or an
exponent a number that does not round to infinity. Only a negative one may be that large. -/
def takeDecimal (cs : List Char) : Option (List Char) := do
  let (sign, cs) := takeSign cs
  let negative := sign = some '-'
  let (whole, cs) ← takeDigitGroups Char.isDigit cs
  if whole.head? = some '0' ∧ whole.length ≠ 1 then none
  let (fraction, cs) ← takeFraction cs
  let (exponent, cs) ← takeExponent cs
  let fits := match fraction, exponent with
    | none, none =>
      let n : Int := digitsValue whole
      (int64? (if negative then -n else n)).isSome
    | _, _ =>
      Binary64.ofScientific ⟨negative, whole, fraction.getD [], exponent.getD 0⟩ ≠
        Binary64.infinity false
  if fits then some cs else none

def takeNumber (cs : List Char) : Option (List Char) :=
  match cs with
  | '0' :: 'x' :: cs => takeBased 16 (fun c => (hexValue? c).isSome) cs
  | '0' :: 'o' :: cs => takeBased 8 (fun c => '0' ≤ c && c ≤ '7') cs
  | '0' :: 'b' :: cs => takeBased 2 (fun c => c == '0' || c == '1') cs
  | cs =>
    match (takeSign cs).2 with
    | 'i' :: 'n' :: 'f' :: cs | 'n' :: 'a' :: 'n' :: cs => some cs
    | _ => takeDecimal cs

/-! ### Dates and times -/

/-- The number that exactly `width` digits write. -/
def takeFixed (width : Nat) (cs : List Char) : Option (Nat × List Char) :=
  let digits := cs.take width
  if digits.length = width ∧ digits.all Char.isDigit then
    some (digitsValue digits, cs.drop width)
  else none

def takeChar (isWanted : Char → Bool) : List Char → Option (List Char)
  | c :: cs => if isWanted c then some cs else none
  | [] => none

def takeMinutes (cs : List Char) : Option (List Char) := do
  let (hour, cs) ← takeFixed 2 cs
  let (minute, cs) ← takeFixed 2 (← takeChar (· == ':') cs)
  if hour < 24 ∧ minute < 60 then some cs else none

/-- The rest of a text behind `hh:mm:ss` and a fraction of a second, if there is one. -/
def takeTime (cs : List Char) : Option (List Char) := do
  let (second, cs) ← takeFixed 2 (← takeChar (· == ':') (← takeMinutes cs))
  if 60 < second then none
  match cs with
  | '.' :: cs =>
    match takeDigits cs with
    | ([], _) => none
    | (_, cs) => return cs
  | cs => return cs

/-- The rest of a text behind `Z` or a signed `hh:mm`. -/
def takeOffset (cs : List Char) : Option (List Char) :=
  takeChar (fun c => c == 'Z' || c == 'z') cs <|>
    (takeChar (fun c => c == '+' || c == '-') cs).bind takeMinutes

/-- The rest of a text behind `yyyy-mm-dd`, a day of the calendar. -/
def takeDate (cs : List Char) : Option (List Char) := do
  let (year, cs) ← takeFixed 4 cs
  let (month, cs) ← takeFixed 2 (← takeChar (· == '-') cs)
  let (day, cs) ← takeFixed 2 (← takeChar (· == '-') cs)
  if (Date.of? year month day).isSome then some cs else none

/-- The rest of a text behind a date, a time, or a date with a time and perhaps an offset. -/
def takeMoment (cs : List Char) : Option (List Char) :=
  match takeDate cs with
  | none => takeTime cs
  | some cs =>
    match (takeChar (fun c => c == 'T' || c == 't' || c == ' ') cs).bind takeTime with
    | none => some cs
    | some cs => some ((takeOffset cs).getD cs)

end SelectCompiler.Toml
