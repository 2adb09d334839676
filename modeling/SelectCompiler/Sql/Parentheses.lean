import SelectCompiler.Tree.Basic

/-!
Which operands are written in parentheses. An operand that binds less tightly than its operator
always is; the rest keeps apart what readers of the text would join or rank in different ways.
-/

namespace SelectCompiler.Expr

/-- Whether the written expression starts with a minus sign; two of them would open a comment. -/
def startsWithMinus : Expr → Bool
  | unary .negate _ _ => true
  | literal l =>
    match l.value with
    | .int n => decide (n.toInt < 0)
    | .float x => x.isNegative
    | _ => false
  | fragment text => (trimStart text.toList).head? == some '-'
  | _ => false

def isBinary (op : BinaryOp) : Expr → Bool
  | binary _ inner _ _ => inner == op
  | _ => false

/-- Whether the expression applies an operator whose rank against `op` is not agreed. -/
def mixesWith (op : BinaryOp) : Expr → Bool
  | binary _ inner _ _ => op.mixesWith inner
  | _ => false

/-- Comparisons do not chain; other operators group to the left. -/
def enclosedOnLeft (op : BinaryOp) (e : Expr) : Bool :=
  decide (e.rank < op.rank) || (op.isComparison && e.rank == op.rank) || e.mixesWith op

/-- On the right only a chain of one associative operator goes without parentheses. -/
def enclosedOnRight (op : BinaryOp) (e : Expr) : Bool :=
  decide (e.rank < op.rank) ||
    (e.rank == op.rank && !(op.isAssociative && e.isBinary op)) || e.mixesWith op

def enclosedUnderNot (e : Expr) : Bool := decide (e.rank < 3)

def enclosedUnderMinus (e : Expr) : Bool := decide (e.rank < 8) || e.startsWithMinus

def enclosedInTest (e : Expr) : Bool := decide (e.rank ≤ 4)

end SelectCompiler.Expr
