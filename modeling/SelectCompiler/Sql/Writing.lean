import SelectCompiler.Sql.Clauses
import SelectCompiler.Sql.Parentheses

/-!
A tree as tokens. Writing never fails: whether a tree may be written at all is decided beforehand,
by its faults.
-/

namespace SelectCompiler

structure Options where
  /-- Whether constants are bound like parameters instead of being written into the text. -/
  bindLiterals : Bool := false
deriving DecidableEq

open Token (clause words enclosed enclosedIf listed qualified optionalClause listClause)

/-! ### The parts that have no parts -/

namespace Dialect

variable (d : Dialect)

def literalToken (o : Options) (l : Literal) : Token :=
  if o.bindLiterals then .placeholder ⟨none, l.value, l.type⟩
  else .constant (d.constant l.value l.type)

def operatorToken : BinaryOp → Token
  | .and => .word "AND"
  | .or => .word "OR"
  | op => .symbol (d.spelling op)

def binaryTokens (op : BinaryOp) (encloseLeft encloseRight : Bool) (left right : List Token) :
    List Token :=
  if op == .concat && d.concatOperator.isNone then
    .word "CONCAT" :: enclosed (listed [left, right])
  else
    enclosedIf encloseLeft left ++ .space :: d.operatorToken op :: .space ::
      enclosedIf encloseRight right

def functionToken (isBuiltIn : Bool) (name : String) : Token :=
  if isBuiltIn then .verbatim name else .name name

/-- The name of a source, and its alias behind it. -/
def aliased (aliasName : String) (source : List Token) : List Token :=
  source ++ d.aliasLead ++ [.name aliasName]

/-- An operand of a set operation. Its own ordering and paging must stay inside. -/
def operandTokens (paged : Bool) (operand : List Token) : List Token :=
  if paged then d.operandLead ++ operand ++ [.symbol ")"] else operand

end Dialect

/-- The alias of a projection; a column needs none to keep its own name. -/
def projectionAlias : Expr → String → List Token
  | .column c, aliasName =>
    if aliasName == "" || c.name == aliasName then [] else clause ["AS"] ++ [.name aliasName]
  | _, aliasName => if aliasName == "" then [] else clause ["AS"] ++ [.name aliasName]

def joinWords : JoinKind → List String
  | .inner => ["INNER", "JOIN"]
  | .left => ["LEFT", "JOIN"]
  | .cross => ["CROSS", "JOIN"]
  | .crossApply => ["CROSS", "APPLY"]
  | .outerApply => ["OUTER", "APPLY"]

def testWords (negated : Bool) (word : String) : List Token :=
  clause (if negated then ["NOT", word] else [word])

/-- Whether a block has an ordering, a limit or an offset of its own. -/
def Select.isPaged (s : Select) : Bool :=
  !s.orderings.isEmpty || s.limit.isSome || s.offset.isSome

/-! ### Trees -/

mutual

def Expr.tokens (d : Dialect) (o : Options) : Expr → List Token
  | .column c => qualified (givenName c.table) (.name c.name)
  | .literal l => [d.literalToken o l]
  | .parameter p => [.placeholder ⟨some p.name, p.value, p.type⟩]
  | .unary .not operand _ =>
    .word "NOT" :: .space :: enclosedIf operand.enclosedUnderNot (operand.tokens d o)
  | .unary .negate operand _ =>
    .symbol "-" :: enclosedIf operand.enclosedUnderMinus (operand.tokens d o)
  | .unary .isNull operand _ =>
    enclosedIf operand.enclosedInTest (operand.tokens d o) ++ .space :: words ["IS", "NULL"]
  | .unary .isNotNull operand _ =>
    enclosedIf operand.enclosedInTest (operand.tokens d o) ++ .space :: words ["IS", "NOT", "NULL"]
  | .unary (.cast target) operand _ =>
    .word "CAST" :: enclosed (operand.tokens d o ++ clause ["AS"] ++ [d.typeToken target])
  | .binary left op right _ =>
    d.binaryTokens op (left.enclosedOnLeft op) (right.enclosedOnRight op) (left.tokens d o)
      (right.tokens d o)
  | .function ⟨name, schema, isBuiltIn, isNiladic, _, _, arguments, _⟩ =>
    qualified (d.schemaOf isBuiltIn schema) (Dialect.functionToken isBuiltIn name) ++
      if isNiladic then [] else enclosed (listed (Expr.tokensEach d o arguments))
  | .subquery select => enclosed (select.tokens d o)
  | .exists subquery negated =>
    (if negated then [.word "NOT", .space] else []) ++
      .word "EXISTS" :: .space :: enclosed (subquery.tokens d o)
  | .inList item values negated =>
    enclosedIf item.enclosedInTest (item.tokens d o) ++ testWords negated "IN" ++
      enclosed (listed (Expr.tokensEach d o values))
  | .inSelect item values negated =>
    enclosedIf item.enclosedInTest (item.tokens d o) ++ testWords negated "IN" ++
      enclosed (values.tokens d o)
  | .like item pattern escape negated =>
    enclosedIf item.enclosedInTest (item.tokens d o) ++ testWords negated "LIKE" ++
      enclosedIf pattern.enclosedInTest (pattern.tokens d o) ++
      (match escape with
        | some e => clause ["ESCAPE"] ++ e.tokens d o
        | none => [])
  | .case operand whens otherwise _ =>
    .word "CASE" ::
      (match operand with
        | some e => .space :: e.tokens d o
        | none => []) ++
      (Expr.tokensWhens d o whens).flatten ++
      (match otherwise with
        | some e => clause ["ELSE"] ++ e.tokens d o
        | none => []) ++
      [.space, .word "END"]
  | .fragment text => [.verbatim text]

def Expr.tokensEach (d : Dialect) (o : Options) : List Expr → List (List Token)
  | [] => []
  | e :: es => e.tokens d o :: Expr.tokensEach d o es

def Expr.tokensWhens (d : Dialect) (o : Options) : List (Expr × Expr) → List (List Token)
  | [] => []
  | (condition, result) :: whens =>
    (clause ["WHEN"] ++ condition.tokens d o ++ clause ["THEN"] ++ result.tokens d o) ::
      Expr.tokensWhens d o whens

def Projection.tokensEach (d : Dialect) (o : Options) : List Projection → List (List Token)
  | [] => []
  | ⟨expr, aliasName⟩ :: ps =>
    (expr.tokens d o ++ projectionAlias expr aliasName) :: Projection.tokensEach d o ps

def SortTerm.tokensEach (d : Dialect) (o : Options) : List SortTerm → List (List Token)
  | [] => []
  | ⟨expr, ascending⟩ :: ts =>
    (expr.tokens d o ++ if ascending then [] else [.space, .word "DESC"]) ::
      SortTerm.tokensEach d o ts

def Select.tokens (d : Dialect) (o : Options) : Select → List Token
  | ⟨distinct, projections, sources, joins, predicate, groupBy, having, orderings, limit, offset⟩ =>
    d.assemble
      { distinct
        projections := Projection.tokensEach d o projections
        sources := Source.tokensEach d o sources
        joins := Join.tokensEach d o joins
        predicate := match predicate with
          | some e => some (e.tokens d o)
          | none => none
        groupBy := Expr.tokensEach d o groupBy
        having := match having with
          | some e => some (e.tokens d o)
          | none => none
        orderings := SortTerm.tokensEach d o orderings
        limit := match limit with
          | some e => some (e.tokens d o)
          | none => none
        offset := match offset with
          | some e => some (e.tokens d o)
          | none => none }

def Source.tokens (d : Dialect) (o : Options) : Source → List Token
  | .table name schema aliasName =>
    qualified (givenName schema) (.name name) ++
      match givenName aliasName with
      | some aliasName => d.aliased aliasName []
      | none => []
  | .derived select aliasName => d.aliased aliasName (enclosed (select.tokens d o))
  | .function ⟨name, schema, isBuiltIn, arguments, aliasName⟩ =>
    d.aliased aliasName
      (qualified (d.schemaOf isBuiltIn schema) (Dialect.functionToken isBuiltIn name) ++
        enclosed (listed (Expr.tokensEach d o arguments)))
  | .set ⟨operator, distinct, left, right, aliasName⟩ =>
    d.aliased aliasName <| enclosed <|
      d.operandTokens left.isPaged (left.tokens d o) ++
        clause (d.setWord operator :: if distinct then [] else ["ALL"]) ++
        d.operandTokens right.isPaged (right.tokens d o)

def Source.tokensEach (d : Dialect) (o : Options) : List Source → List (List Token)
  | [] => []
  | s :: ss => s.tokens d o :: Source.tokensEach d o ss

def Join.tokensEach (d : Dialect) (o : Options) : List Join → List (List Token)
  | [] => []
  | ⟨kind, source, predicate⟩ :: js =>
    (clause (joinWords kind) ++ source.tokens d o ++
      match predicate with
      | some e => clause ["ON"] ++ e.tokens d o
      | none => []) ::
      Join.tokensEach d o js

end

end SelectCompiler
