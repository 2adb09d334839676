import SelectCompiler.Text.Digits

/-!
Blanks, comments, strings and keys of a TOML document. A string stands in single or double quotes,
and over several lines in three of them; only double quotes allow escapes.
-/

namespace SelectCompiler.Toml

def skipSpaces (cs : List Char) : List Char := cs.dropWhile fun c => c == ' ' || c == '\t'

/-- Whether a character may stand in a comment or, as itself, in a string. -/
def isPlain (c : Char) : Bool := c == '\t' || (0x20 ≤ c.toNat && c.toNat != 0x7F)

def takeLineEnd : List Char → Option (List Char)
  | '\n' :: cs => some cs
  | '\r' :: '\n' :: cs => some cs
  | _ => none

def skipComment : List Char → List Char
  | '#' :: cs => cs.dropWhile isPlain
  | cs => cs

/-- The text without spaces, comments and line ends in front. -/
def skipLines : (fuel : Nat) → List Char → List Char
  | 0, cs => cs
  | fuel + 1, cs =>
    let cs := skipComment (skipSpaces cs)
    match takeLineEnd cs with
    | some cs => skipLines fuel cs
    | none => cs

/-- The text without spaces and line ends in front. -/
def skipBlankLines : (fuel : Nat) → List Char → List Char
  | 0, cs => cs
  | fuel + 1, cs =>
    let cs := skipSpaces cs
    match takeLineEnd cs with
    | some cs => skipBlankLines fuel cs
    | none => cs

/-! ### Strings -/

/-- The character with a hexadecimal code of the given length; surrogates are none. -/
def takeCode (length : Nat) (cs : List Char) : Option (Char × List Char) := do
  let digits := cs.take length
  if digits.length < length then none
  let code ← digits.foldlM (fun n c => (hexValue? c).map (16 * n + ·)) 0
  if code < 0xD800 ∨ (0xDFFF < code ∧ code < 0x110000) then
    return (Char.ofNat code, cs.drop length)
  else none

def escapeOf? : Char → Option Char
  | 'b' => some '\x08'
  | 't' => some '\t'
  | 'n' => some '\n'
  | 'f' => some '\x0c'
  | 'r' => some '\r'
  | '"' => some '"'
  | '\\' => some '\\'
  | _ => none

/-- The character of an escape behind its backslash. -/
def takeEscape : List Char → Option (Char × List Char)
  | 'u' :: cs => takeCode 4 cs
  | 'U' :: cs => takeCode 8 cs
  | letter :: cs => (escapeOf? letter).map (·, cs)
  | [] => none

/-- The characters of a string with escapes, up to its closing quote. -/
def takeBasic : (fuel : Nat) → List Char → Option (List Char × List Char)
  | 0, _ => none
  | fuel + 1, cs => do
    match cs with
    | '"' :: cs => return ([], cs)
    | '\\' :: cs =>
      let (c, cs) ← takeEscape cs
      let (rest, cs) ← takeBasic fuel cs
      return (c :: rest, cs)
    | c :: cs =>
      if !isPlain c then none
      let (rest, cs) ← takeBasic fuel cs
      return (c :: rest, cs)
    | [] => none

/-- The characters of a string without escapes, up to its closing quote. -/
def takeLiteral (cs : List Char) : Option (List Char × List Char) :=
  match cs.span (fun c => isPlain c && c != '\'') with
  | (characters, '\'' :: cs) => some (characters, cs)
  | _ => none

def takeString : List Char → Option (String × List Char)
  | '"' :: cs => (takeBasic (cs.length + 1) cs).map fun (s, cs) => (String.ofList s, cs)
  | '\'' :: cs => (takeLiteral cs).map fun (s, cs) => (String.ofList s, cs)
  | _ => none

/-- The rest of a text behind the backslash that joins two lines: the line end and all blanks that
follow are left out. -/
def takeContinuation (cs : List Char) : Option (List Char) :=
  (takeLineEnd (skipSpaces cs)).map fun cs => skipBlankLines (cs.length + 1) cs

/-- The characters of a string over several lines, up to the three quotes that close it. Up to two
more quotes right before these belong to the string, and every line end counts as a newline. -/
def takeLong (quote : Char) (escapes : Bool) :
    (fuel : Nat) → List Char → Option (List Char × List Char)
  | 0, _ => none
  | fuel + 1, cs => do
    match takeLineEnd cs, cs with
    | some cs, _ =>
      let (rest, cs) ← takeLong quote escapes fuel cs
      return ('\n' :: rest, cs)
    | none, [] => none
    | none, c :: cs =>
      if c = quote ∧ cs.take 2 = [quote, quote] then
        let final := ((cs.drop 2).take 2).takeWhile (· == quote)
        return (final, cs.drop (2 + final.length))
      else if c = '\\' ∧ escapes then
        match takeContinuation cs with
        | some cs => takeLong quote escapes fuel cs
        | none =>
          let (c, cs) ← takeEscape cs
          let (rest, cs) ← takeLong quote escapes fuel cs
          return (c :: rest, cs)
      else if isPlain c then
        let (rest, cs) ← takeLong quote escapes fuel cs
        return (c :: rest, cs)
      else none

/-- A string over several lines behind its opening quotes; a line end right there is left out. -/
def takeLongString (quote : Char) (cs : List Char) : Option (String × List Char) :=
  let cs := (takeLineEnd cs).getD cs
  (takeLong quote (quote == '"') (cs.length + 1) cs).map fun (s, cs) => (String.ofList s, cs)

/-! ### Keys -/

def isBare (c : Char) : Bool := c.isAlphanum || c == '_' || c == '-'

def takeSimpleKey (cs : List Char) : Option (String × List Char) :=
  match cs.span isBare with
  | ([], cs) => takeString cs
  | (characters, cs) => some (String.ofList characters, cs)

/-- How many tables may be nested in each other by one key or one value. -/
def nestingLimit : Nat := 79

/-- A dotted key of at most `parts` parts: the parts before the last, and the last. -/
def takeParts : (parts : Nat) → List Char → Option ((List String × String) × List Char)
  | 0, _ => none
  | parts + 1, cs => do
    let (key, cs) ← takeSimpleKey (skipSpaces cs)
    match skipSpaces cs with
    | '.' :: cs =>
      let ((path, last), cs) ← takeParts parts cs
      return ((key :: path, last), cs)
    | cs => return (([], key), cs)

/-- A key with the dots and blanks between its parts. -/
def takeKey (cs : List Char) : Option ((List String × String) × List Char) :=
  takeParts nestingLimit cs

end SelectCompiler.Toml
