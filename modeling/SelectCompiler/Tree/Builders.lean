import SelectCompiler.Tree.Basic

/-!
Short ways to build trees by hand. Each builder fills in the declared types that follow from its
operands.
-/

namespace SelectCompiler

namespace FunctionCall

/-- A function of the database itself; it is null when an argument is. -/
def builtIn (name : String) (arguments : List Expr) (type : SqlType) : FunctionCall where
  name
  schema := none
  isBuiltIn := true
  isNiladic := false
  isNullable := true
  propagatesNull := List.replicate arguments.length true
  arguments
  type

def niladic (name : String) (type : SqlType) : FunctionCall :=
  { builtIn name [] type with isNiladic := true }

def userDefined (schema : Option String) (name : String) (arguments : List Expr) (type : SqlType) :
    FunctionCall :=
  { builtIn name arguments type with schema, isBuiltIn := false }

end FunctionCall

namespace Expr

def typedColumn (table : Option String) (name : String) (type : SqlType) : Expr :=
  .column ⟨name, table, type, true⟩

def named (name : String) : Expr := typedColumn none name (.custom "")

def namedOf (table name : String) : Expr := typedColumn (some table) name (.custom "")

def star : Expr := .fragment "*"

def typedConstant (value : Value) (type : SqlType) : Expr := .literal ⟨value, type⟩

def constant (value : Value) : Expr := typedConstant value value.naturalType

def ofInt (n : Int64) : Expr := typedConstant (.int n) .int

def ofText (s : String) : Expr := typedConstant (.text s) .text

def ofBool (b : Bool) : Expr := typedConstant (.bool b) .boolean

def null : Expr := constant .null

def bound (name : String) (value : Value) : Expr := .parameter ⟨name, value, value.naturalType⟩

def builtIn (name : String) (arguments : List Expr) (type : SqlType) : Expr :=
  .function (.builtIn name arguments type)

def userDefined (schema : Option String) (name : String) (arguments : List Expr) (type : SqlType) :
    Expr :=
  .function (.userDefined schema name arguments type)

def countStar : Expr := builtIn "COUNT" [star] .int

/-- Comparisons and connectives are Boolean; other operators have the type of their left side. -/
def combine (left : Expr) (op : BinaryOp) (right : Expr) : Expr :=
  .binary left op right (if op.isComparison || op == .and || op == .or then .boolean else left.type)

def apply (op : UnaryOp) (operand : Expr) : Expr :=
  .unary op operand <| match op with
    | .negate => operand.type
    | .cast target => target
    | .not | .isNull | .isNotNull => .boolean

def existsIn (select : Select) : Expr := .exists select false

def amongst (item : Expr) (values : List Expr) : Expr := .inList item values false

def amongstRows (item : Expr) (select : Select) : Expr := .inSelect item select false

def matching (item pattern : Expr) : Expr := .like item pattern none false

/-- A `CASE` without an operand, of the type of its first result. -/
def caseWhen (whens : List (Expr × Expr)) (otherwise : Option Expr) : Expr :=
  .case none whens otherwise <| match whens with
    | (_, result) :: _ => result.type
    | [] => .custom ""

end Expr

namespace Source

def named (name : String) : Source := .table name none none

def namedAs (name aliasName : String) : Source := .table name none (some aliasName)

def inSchema (schema name : String) (aliasName : Option String) : Source :=
  .table name (some schema) aliasName

def calling (schema : Option String) (name : String) (arguments : List Expr) (aliasName : String) :
    Source :=
  .function ⟨name, schema, false, arguments, aliasName⟩

def combining (operator : SetOperator) (distinct : Bool) (left right : Select)
    (aliasName : String) : Source :=
  .set ⟨operator, distinct, left, right, aliasName⟩

end Source

namespace Select

def ofSource (source : Source) : Select := { sources := [source] }

def withoutDuplicates (s : Select) : Select := { s with distinct := true }

def projectAs (s : Select) (expr : Expr) (aliasName : String) : Select :=
  { s with projections := s.projections ++ [⟨expr, aliasName⟩] }

def project (s : Select) (expr : Expr) : Select := s.projectAs expr ""

def addSource (s : Select) (source : Source) : Select := { s with sources := s.sources ++ [source] }

def addJoin (s : Select) (kind : JoinKind) (source : Source) (predicate : Option Expr) : Select :=
  { s with joins := s.joins ++ [⟨kind, source, predicate⟩] }

/-- Keeps the rows that also satisfy a predicate. -/
def filter (s : Select) (predicate : Expr) : Select :=
  { s with predicate := some <| match s.predicate with
      | some kept => kept.combine .and predicate
      | none => predicate }

def addGroupKey (s : Select) (key : Expr) : Select := { s with groupBy := s.groupBy ++ [key] }

def withHaving (s : Select) (predicate : Expr) : Select := { s with having := some predicate }

def orderBy (s : Select) (expr : Expr) (ascending : Bool) : Select :=
  { s with orderings := s.orderings ++ [⟨expr, ascending⟩] }

def withLimit (s : Select) (limit : Expr) : Select := { s with limit := some limit }

def withOffset (s : Select) (offset : Expr) : Select := { s with offset := some offset }

end Select

end SelectCompiler
