import SelectCompiler.Json.Basic
import SelectCompiler.Numeral.Decimal

/-!
JSON text of a value, on one line or indented by two blanks for every level.
-/

namespace SelectCompiler.Json

def unitDigits (n : Nat) : List Char :=
  [Nat.digitChar (n / 4096 % 16), Nat.digitChar (n / 256 % 16), Nat.digitChar (n / 16 % 16),
    Nat.digitChar (n % 16)]

def escaped (c : Char) : List Char :=
  match c with
  | '"' => ['\\', '"']
  | '\\' => ['\\', '\\']
  | '\n' => ['\\', 'n']
  | '\r' => ['\\', 'r']
  | '\t' => ['\\', 't']
  | '\x08' => ['\\', 'b']
  | '\x0c' => ['\\', 'f']
  | c => if c.toNat < 0x20 then '\\' :: 'u' :: unitDigits c.toNat else [c]

def quoted (s : String) : String := String.ofList ('"' :: s.toList.flatMap escaped ++ ['"'])

/-- How a value is laid out: the text of floats, and indentation if there is any. -/
structure Style where
  float : Binary64 → String
  indented : Bool

/-- The start of a line at a level of nesting. -/
def Style.newLine (style : Style) (level : Nat) : String :=
  if style.indented then "\n" ++ String.ofList (List.replicate (2 * level) ' ') else ""

def Style.bracketed (style : Style) (level : Nat) (opening closing : String) (items : List String) :
    String :=
  if items.isEmpty then opening ++ closing
  else
    opening ++ style.newLine (level + 1) ++
      ("," ++ style.newLine (level + 1)).intercalate items ++ style.newLine level ++ closing

mutual

def print (style : Style) (level : Nat) : Json → String
  | null | unreadable => "null"
  | bool b => if b then "true" else "false"
  | int n => toString n
  | float x => style.float x
  | str s => quoted s
  | arr items => style.bracketed level "[" "]" (printItems style (level + 1) items)
  | obj members => style.bracketed level "\x7b" "\x7d" (printMembers style (level + 1) members)

def printItems (style : Style) (level : Nat) : List Json → List String
  | [] => []
  | j :: js => j.print style level :: printItems style level js

def printMembers (style : Style) (level : Nat) : List (String × Json) → List String
  | [] => []
  | (name, j) :: ms =>
    (quoted name ++ (if style.indented then ": " else ":") ++ j.print style level) ::
      printMembers style level ms

end

def pretty (j : Json) : String := j.print ⟨Layout.json.text, true⟩ 0

end SelectCompiler.Json
