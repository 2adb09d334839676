import SelectCompiler.Tree.Operator

/-!
The tree of a relational query: scalar expressions, query blocks (`Select`), and the sources that a
block draws its rows from. Nothing in a tree depends on a database.
-/

namespace SelectCompiler

/-- A column, qualified by the alias of its source or not. -/
structure Column where
  name : String
  table : Option String
  type : SqlType
  nullable : Bool
deriving DecidableEq

structure Literal where
  value : Value
  type : SqlType
deriving DecidableEq

/-- A value that is always sent apart from the text. -/
structure Parameter where
  name : String
  value : Value
  type : SqlType
deriving DecidableEq

inductive SetOperator where
  | union
  | intersect
  | except
deriving DecidableEq

def SetOperator.spelling : SetOperator → String
  | .union => "UNION"
  | .intersect => "INTERSECT"
  | .except => "EXCEPT"

inductive JoinKind where
  | inner
  | left
  | cross
  /-- The right side may refer to the rows on the left. -/
  | crossApply
  | outerApply
deriving DecidableEq

/-- Inner and left joins take a predicate; the others must not. -/
def JoinKind.takesPredicate : JoinKind → Bool
  | .inner | .left => true
  | _ => false

def JoinKind.name : JoinKind → String
  | .inner => "Inner"
  | .left => "Left"
  | .cross => "Cross"
  | .crossApply => "CrossApply"
  | .outerApply => "OuterApply"

mutual

inductive Expr where
  | column (c : Column)
  | literal (l : Literal)
  | parameter (p : Parameter)
  | unary (op : UnaryOp) (operand : Expr) (type : SqlType)
  | binary (left : Expr) (op : BinaryOp) (right : Expr) (type : SqlType)
  | function (call : FunctionCall)
  | subquery (select : Select)
  | exists (subquery : Select) (negated : Bool)
  | inList (item : Expr) (values : List Expr) (negated : Bool)
  | inSelect (item : Expr) (values : Select) (negated : Bool)
  | like (item pattern : Expr) (escape : Option Expr) (negated : Bool)
  | case (operand : Option Expr) (whens : List (Expr × Expr)) (otherwise : Option Expr)
      (type : SqlType)
  /-- Text that goes into the query as it stands. -/
  | fragment (text : String)

/-- A call of a scalar function. A built-in function never has a schema, and one without
parentheses has no arguments. -/
structure FunctionCall where
  name : String
  schema : Option String
  isBuiltIn : Bool
  isNiladic : Bool
  isNullable : Bool
  propagatesNull : List Bool
  arguments : List Expr
  type : SqlType

/-- A projected expression; an empty alias is none. -/
structure Projection where
  expr : Expr
  aliasName : String

structure SortTerm where
  expr : Expr
  ascending : Bool

structure Select where
  distinct : Bool := false
  projections : List Projection := []
  sources : List Source := []
  joins : List Join := []
  predicate : Option Expr := none
  groupBy : List Expr := []
  having : Option Expr := none
  orderings : List SortTerm := []
  limit : Option Expr := none
  offset : Option Expr := none

inductive Source where
  | table (name : String) (schema aliasName : Option String)
  | derived (select : Select) (aliasName : String)
  | function (call : TableFunction)
  | set (operation : SetOperation)

structure TableFunction where
  name : String
  schema : Option String
  isBuiltIn : Bool
  arguments : List Expr
  aliasName : String

/-- Two blocks combined; `ALL` unless `distinct`. -/
structure SetOperation where
  operator : SetOperator
  distinct : Bool
  left : Select
  right : Select
  aliasName : String

structure Join where
  kind : JoinKind
  source : Source
  predicate : Option Expr

end

/-- A name that is given and not empty. -/
def givenName (name : Option String) : Option String := name.filter (· != "")

namespace Expr

/-- The declared type; tests are Boolean, and a subquery has the type of its first projection. -/
def type : Expr → SqlType
  | column c => c.type
  | literal l => l.type
  | parameter p => p.type
  | unary _ _ type => type
  | binary _ _ _ type => type
  | function call => call.type
  | subquery ⟨_, projections, _, _, _, _, _, _, _, _⟩ =>
    match projections with
    | ⟨expr, _⟩ :: _ => expr.type
    | [] => .int
  | .exists _ _ | inList _ _ _ | inSelect _ _ _ | like _ _ _ _ => .boolean
  | case _ _ _ type => type
  | fragment _ => .custom ""

def rank : Expr → Nat
  | binary _ op _ _ => op.rank
  | unary .not _ _ => 3
  | unary .isNull _ _ | unary .isNotNull _ _ => 4
  | inList _ _ _ | inSelect _ _ _ | like _ _ _ _ => 4
  | unary .negate _ _ => 8
  | _ => 9

end Expr

namespace Source

/-- The name under which other nodes refer to the rows of a source. -/
def alias? : Source → Option String
  | table name _ aliasName => givenName (some (aliasName.getD name))
  | derived _ aliasName => givenName (some aliasName)
  | function call => givenName (some call.aliasName)
  | set operation => givenName (some operation.aliasName)

end Source

namespace Select

/-- The sources in scope, those of `FROM` before those of joins. -/
def allSources (s : Select) : List Source := s.sources ++ s.joins.map Join.source

end Select

end SelectCompiler
