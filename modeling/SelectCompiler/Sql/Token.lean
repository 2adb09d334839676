import SelectCompiler.Value

/-!
The tokens of a written query. A query is a list of tokens until the very end, when the dialect
spells names and constants and the placeholders are numbered from left to right.
-/

namespace SelectCompiler

/-- A value to be sent apart from the text; only parameters have a name. -/
structure Binding where
  name : Option String
  value : Value
  type : SqlType
deriving DecidableEq

inductive Constant where
  | bare (text : String)
  /-- A string constant with text directly before and after its quotes. -/
  | quoted (lead content tail : String)
deriving DecidableEq

inductive Token where
  | space
  /-- A keyword, or another word that the query itself does not choose. -/
  | word (text : String)
  /-- An operator or a mark of punctuation. -/
  | symbol (text : String)
  /-- Text that the query gives and that is written as it stands. -/
  | verbatim (text : String)
  | name (name : String)
  | constant (c : Constant)
  /-- A placeholder and the value that is bound to it. -/
  | placeholder (b : Binding)
deriving DecidableEq

namespace Token

def words (ws : List String) : List Token := [.space].intercalate (ws.map ([.word ·]))

def clause (keywords : List String) : List Token := .space :: words keywords ++ [.space]

def enclosed (tokens : List Token) : List Token := .symbol "(" :: tokens ++ [.symbol ")"]

def enclosedIf (needed : Bool) (tokens : List Token) : List Token :=
  if needed then enclosed tokens else tokens

def listed (items : List (List Token)) : List Token :=
  [.symbol ",", .space].intercalate items

/-- A name behind the schema or table that it belongs to, if one is given. -/
def qualified (qualifier : Option String) (name : Token) : List Token :=
  match qualifier with
  | some q => [.name q, .symbol ".", name]
  | none => [name]

def binding? : Token → Option Binding
  | .placeholder b => some b
  | _ => none

/-- The bound values, in the order of their placeholders. -/
def bindings (tokens : List Token) : List Binding := tokens.filterMap binding?

end Token

end SelectCompiler
