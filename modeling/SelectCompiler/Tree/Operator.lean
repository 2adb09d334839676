import SelectCompiler.Value

/-!
The operators of scalar expressions and how tightly each of them binds. Ranks run from 1 (`OR`) to 9
(columns, calls and whatever else stands on its own); a higher rank binds tighter.
-/

namespace SelectCompiler

inductive UnaryOp where
  | not
  | negate
  | isNull
  | isNotNull
  | cast (target : SqlType)
deriving DecidableEq

inductive BinaryOp where
  | add
  | subtract
  | multiply
  | divide
  | modulo
  | concat
  | and
  | or
  | equal
  | notEqual
  | lessThan
  | lessThanOrEqual
  | greaterThan
  | greaterThanOrEqual
  | bitwiseAnd
  | bitwiseOr
deriving DecidableEq

namespace BinaryOp

def rank : BinaryOp → Nat
  | or => 1
  | and => 2
  | equal | notEqual | lessThan | lessThanOrEqual | greaterThan | greaterThanOrEqual => 4
  | concat | bitwiseAnd | bitwiseOr => 5
  | add | subtract => 6
  | multiply | divide | modulo => 7

def spelling : BinaryOp → String
  | add => "+"
  | subtract => "-"
  | multiply => "*"
  | divide => "/"
  | modulo => "%"
  | concat => "||"
  | and => "AND"
  | or => "OR"
  | equal => "="
  | notEqual => "<>"
  | lessThan => "<"
  | lessThanOrEqual => "<="
  | greaterThan => ">"
  | greaterThanOrEqual => ">="
  | bitwiseAnd => "&"
  | bitwiseOr => "|"

def isComparison (op : BinaryOp) : Bool := op.rank == 4

/-- Arithmetic, string or bitwise: whatever binds tighter than a comparison. -/
def isValueOperator (op : BinaryOp) : Bool := decide (4 < op.rank)

/-- The operators whose rank against arithmetic differs between databases. -/
def isStringOrBitwise : BinaryOp → Bool
  | concat | bitwiseAnd | bitwiseOr => true
  | _ => false

/-- Whether `a op (b op c)` is written without its parentheses. -/
def isAssociative : BinaryOp → Bool
  | add | multiply | concat | and | or | bitwiseAnd | bitwiseOr => true
  | _ => false

/-- The two operators differ, both yield values, and one of them has no agreed rank. -/
def mixesWith (op inner : BinaryOp) : Bool :=
  inner != op && op.isValueOperator && inner.isValueOperator &&
    (op.isStringOrBitwise || inner.isStringOrBitwise)

end BinaryOp

end SelectCompiler
