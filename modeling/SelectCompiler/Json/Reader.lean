import SelectCompiler.Json.Number

/-!
Reading JSON text. The grammar is strict: no trailing text, no trailing comma, no leading zero, no
raw control character in a string.
-/

namespace SelectCompiler.Json

/-- Containers nested deeper than this have no value. -/
def nestingLimit : Nat := 127

/-- The text without the blanks in front that JSON knows. -/
def skipBlanks (cs : List Char) : List Char :=
  cs.dropWhile fun c => c == ' ' || c == '\n' || c == '\t' || c == '\r'

def unitValue? (a b c d : Char) : Option Nat := do
  return (((← hexValue? a) * 16 + (← hexValue? b)) * 16 + (← hexValue? c)) * 16 + (← hexValue? d)

def escapeOf? : Char → Option Char
  | '"' => some '"'
  | '\\' => some '\\'
  | '/' => some '/'
  | 'b' => some '\x08'
  | 'f' => some '\x0c'
  | 'n' => some '\n'
  | 'r' => some '\r'
  | 't' => some '\t'
  | _ => none

/-- The codes of a string up to its closing quote, behind those already read in reverse. An escape
may give half of a surrogate pair. -/
def takeCodes (before : List Nat) : List Char → Option (List Nat × List Char)
  | [] => none
  | '"' :: cs => some (before.reverse, cs)
  | '\\' :: 'u' :: a :: b :: c :: d :: cs =>
    match unitValue? a b c d with
    | some unit => takeCodes (unit :: before) cs
    | none => none
  | '\\' :: c :: cs =>
    match escapeOf? c with
    | some c => takeCodes (c.toNat :: before) cs
    | none => none
  | c :: cs => if c.toNat < 0x20 then none else takeCodes (c.toNat :: before) cs

def isLeading (code : Nat) : Bool := 0xD800 ≤ code && code ≤ 0xDBFF

def isTrailing (code : Nat) : Bool := 0xDC00 ≤ code && code ≤ 0xDFFF

/-- The characters of codes, surrogates joined in pairs; nothing if one stands alone. -/
def joinCodes (before : List Char) : List Nat → Option (List Char)
  | [] => some before.reverse
  | [code] =>
    if isLeading code || isTrailing code then none else some (Char.ofNat code :: before).reverse
  | code :: next :: codes =>
    if isTrailing code then none
    else if isLeading code then
      if isTrailing next then
        joinCodes (Char.ofNat (0x10000 + (code - 0xD800) * 0x400 + (next - 0xDC00)) :: before) codes
      else none
    else joinCodes (Char.ofNat code :: before) (next :: codes)

/-- A string behind its opening quote; `none` inside if it has no value. -/
def takeString (cs : List Char) : Option (Option String × List Char) :=
  (takeCodes [] cs).map fun (codes, cs) => ((joinCodes [] codes).map String.ofList, cs)

/-- The digits of an integer without a leading zero. -/
def takeWhole (cs : List Char) : Option (List Char × List Char) :=
  match takeDigits cs with
  | ([], _) => none
  | ('0' :: _ :: _, _) => none
  | (digits, cs) => some (digits, cs)

def takeFraction : List Char → Option (Option (List Char) × List Char)
  | '.' :: cs =>
    match takeDigits cs with
    | ([], _) => none
    | (digits, cs) => some (some digits, cs)
  | cs => some (none, cs)

def takeExponent : List Char → Option (Option Int × List Char)
  | [] => some (none, [])
  | c :: cs =>
    if c = 'e' ∨ c = 'E' then
      let (sign, cs) := takeSign cs
      match takeDigits cs with
      | ([], _) => none
      | (digits, cs) =>
        let n : Int := digitsValue digits
        some (some (if sign = some '-' then -n else n), cs)
    else some (none, c :: cs)

def takeNumber (cs : List Char) : Option (Json × List Char) := do
  let (negative, cs) := match cs with
    | '-' :: cs => (true, cs)
    | cs => (false, cs)
  let (whole, cs) ← takeWhole cs
  let (fraction, cs) ← takeFraction cs
  let (exponent, cs) ← takeExponent cs
  return (ofNumber negative whole fraction exponent, cs)

def takeWord (word : String) (cs : List Char) : Option (List Char) :=
  if word.toList.isPrefixOf cs then some (cs.drop word.length) else none

mutual

/-- A value at the start of a text, inside `level` containers. -/
def takeValue : (fuel level : Nat) → List Char → Option (Json × List Char)
  | 0, _, _ => none
  | fuel + 1, level, cs =>
    match skipBlanks cs with
    | [] => none
    | '"' :: cs => (takeString cs).map fun (s, cs) => ((s.map str).getD unreadable, cs)
    | '[' :: cs =>
      (match skipBlanks cs with
        | ']' :: cs => some ([], cs)
        | cs => takeItems fuel (level + 1) cs).map fun (items, cs) =>
          (if level < nestingLimit then arr items else unreadable, cs)
    | '{' :: cs =>
      (match skipBlanks cs with
        | '}' :: cs => some (some [], cs)
        | cs => takeMembers fuel (level + 1) cs).map fun (members, cs) =>
          (match members with
            | some members => if level < nestingLimit then obj members else unreadable
            | none => unreadable, cs)
    | 'n' :: cs => (takeWord "ull" cs).map (null, ·)
    | 't' :: cs => (takeWord "rue" cs).map (bool true, ·)
    | 'f' :: cs => (takeWord "alse" cs).map (bool false, ·)
    | cs => takeNumber cs

/-- One or more values with commas between them, and the closing bracket. -/
def takeItems : (fuel level : Nat) → List Char → Option (List Json × List Char)
  | 0, _, _ => none
  | fuel + 1, level, cs => do
    let (item, cs) ← takeValue fuel level cs
    match skipBlanks cs with
    | ']' :: cs => return ([item], cs)
    | ',' :: cs =>
      let (items, cs) ← takeItems fuel level cs
      return (item :: items, cs)
    | _ => none

/-- One or more members with commas between them, and the closing brace; `none` inside if a name
has no value. -/
def takeMembers : (fuel level : Nat) → List Char →
    Option (Option (List (String × Json)) × List Char)
  | 0, _, _ => none
  | fuel + 1, level, cs =>
    match skipBlanks cs with
    | '"' :: cs => do
      let (name, cs) ← takeString cs
      match skipBlanks cs with
      | ':' :: cs =>
        let (value, cs) ← takeValue fuel level cs
        match skipBlanks cs with
        | '}' :: cs => return (name.map fun name => [(name, value)], cs)
        | ',' :: cs =>
          let (members, cs) ← takeMembers fuel level cs
          return (do return (← name, value) :: (← members), cs)
        | _ => none
      | _ => none
    | _ => none

end

/-- Reads a text that holds one value and nothing else. -/
def ofText? (text : String) : Option Json :=
  let cs := text.toList
  match takeValue (2 * cs.length + 2) 0 cs with
  | some (j, cs) => if (skipBlanks cs).isEmpty then some j else none
  | none => none

end SelectCompiler.Json
