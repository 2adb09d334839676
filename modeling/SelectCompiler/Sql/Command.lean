import SelectCompiler.Sql.Faults

/-!
The finished command: the text of a query and the values to bind, in the order of their
placeholders.
-/

namespace SelectCompiler

structure Command where
  sql : String
  parameters : List Binding
deriving DecidableEq

namespace Dialect

variable (d : Dialect)

/-- The text of one token; a placeholder has the given position. -/
def tokenText (position : Nat) : Token → String
  | .space => " "
  | .word text | .symbol text | .verbatim text => text
  | .name name => d.quoteName name
  | .constant c => d.constantText c
  | .placeholder _ => d.placeholderText position

/-- The texts of tokens, the first placeholder having the given position. -/
def texts : (position : Nat) → List Token → List String
  | _, [] => []
  | position, t :: ts =>
    d.tokenText position t :: texts (if t.binding?.isSome then position + 1 else position) ts

/-- The command that tokens amount to. -/
def command (tokens : List Token) : Command where
  sql := String.join (d.texts 1 tokens)
  parameters := Token.bindings tokens

end Dialect

/-- Compiles a query for a dialect, or reports its first fault. -/
def Select.compile (d : Dialect) (o : Options) (s : Select) : Except Fault Command :=
  match s.faults d o with
  | [] => .ok (d.command (s.tokens d o))
  | fault :: _ => .error fault

end SelectCompiler
