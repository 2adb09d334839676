import SelectCompiler.Wire.Basic

/-!
The JSON form of a tree. Every field is present; an optional part that is missing is null.
-/

namespace SelectCompiler

/-- The JSON form of an alternative with data. -/
def Json.variant (tag : String) (payload : Json) : Json := .obj [(tag, payload)]

def Column.toJson (c : Column) : Json :=
  .obj [("name", .str c.name), ("table_alias", optionalText c.table), ("ty", c.type.toJson),
    ("nullable", .bool c.nullable)]

def Literal.toJson (l : Literal) : Json :=
  .obj [("value", l.value.toJson), ("ty", l.type.toJson)]

def Parameter.toJson (p : Parameter) : Json :=
  .obj [("name", .str p.name), ("value", p.value.toJson), ("ty", p.type.toJson)]

mutual

def Expr.toJson : Expr → Json
  | .column c => .variant "Column" c.toJson
  | .literal l => .variant "Literal" l.toJson
  | .parameter p => .variant "Parameter" p.toJson
  | .unary op operand type =>
    .variant "Unary" (.obj [("op", op.toJson), ("operand", operand.toJson), ("ty", type.toJson)])
  | .binary left op right type =>
    .variant "Binary" (.obj [("left", left.toJson), ("op", op.toJson), ("right", right.toJson),
      ("ty", type.toJson)])
  | .function call => .variant "Function" call.toJson
  | .subquery select => .variant "Subquery" select.toJson
  | .exists subquery negated =>
    .variant "Exists" (.obj [("subquery", subquery.toJson), ("negated", .bool negated)])
  | .inList item values negated =>
    .variant "In" (.obj [("item", item.toJson),
      ("values", .variant "List" (.arr (Expr.jsonItems values))), ("negated", .bool negated)])
  | .inSelect item values negated =>
    .variant "In" (.obj [("item", item.toJson), ("values", .variant "Subquery" values.toJson),
      ("negated", .bool negated)])
  | .like item pattern escape negated =>
    .variant "Like" (.obj [("item", item.toJson), ("pattern", pattern.toJson),
      ("escape", match escape with
        | some e => e.toJson
        | none => .null),
      ("negated", .bool negated)])
  | .case operand whens otherwise type =>
    .variant "Case" (.obj [
      ("operand", match operand with
        | some e => e.toJson
        | none => .null),
      ("when_clauses", .arr (Expr.jsonWhens whens)),
      ("else_value", match otherwise with
        | some e => e.toJson
        | none => .null),
      ("ty", type.toJson)])
  | .fragment text => .variant "Fragment" (.str text)

def Expr.jsonItems : List Expr → List Json
  | [] => []
  | e :: es => e.toJson :: Expr.jsonItems es

def Expr.jsonWhens : List (Expr × Expr) → List Json
  | [] => []
  | (condition, result) :: whens =>
    .arr [condition.toJson, result.toJson] :: Expr.jsonWhens whens

def FunctionCall.toJson : FunctionCall → Json
  | ⟨name, schema, isBuiltIn, isNiladic, isNullable, propagatesNull, arguments, type⟩ =>
    .obj [("name", .str name), ("schema", optionalText schema), ("is_built_in", .bool isBuiltIn),
      ("is_niladic", .bool isNiladic), ("is_nullable", .bool isNullable),
      ("arguments_propagate_nullability", .arr (propagatesNull.map .bool)),
      ("arguments", .arr (Expr.jsonItems arguments)), ("ty", type.toJson)]

def Projection.jsonItems : List Projection → List Json
  | [] => []
  | ⟨expr, aliasName⟩ :: ps =>
    .obj [("expr", expr.toJson), ("alias", .str aliasName)] :: Projection.jsonItems ps

def SortTerm.jsonItems : List SortTerm → List Json
  | [] => []
  | ⟨expr, ascending⟩ :: ts =>
    .obj [("expr", expr.toJson), ("ascending", .bool ascending)] :: SortTerm.jsonItems ts

def Select.toJson : Select → Json
  | ⟨distinct, projections, sources, joins, predicate, groupBy, having, orderings, limit, offset⟩ =>
    .obj [("distinct", .bool distinct), ("projections", .arr (Projection.jsonItems projections)),
      ("from", .arr (Source.jsonItems sources)), ("joins", .arr (Join.jsonItems joins)),
      ("predicate", match predicate with
        | some e => e.toJson
        | none => .null),
      ("group_by", .arr (Expr.jsonItems groupBy)),
      ("having", match having with
        | some e => e.toJson
        | none => .null),
      ("orderings", .arr (SortTerm.jsonItems orderings)),
      ("limit", match limit with
        | some e => e.toJson
        | none => .null),
      ("offset", match offset with
        | some e => e.toJson
        | none => .null)]

def Source.toJson : Source → Json
  | .table name schema aliasName =>
    .variant "Table" (.obj [("name", .str name), ("schema", optionalText schema),
      ("alias", optionalText aliasName)])
  | .derived select aliasName =>
    .variant "Subquery" (.obj [("select", select.toJson), ("alias", .str aliasName)])
  | .function call => .variant "TableFunction" call.toJson
  | .set operation => .variant "SetOperation" operation.toJson

def Source.jsonItems : List Source → List Json
  | [] => []
  | s :: ss => s.toJson :: Source.jsonItems ss

def TableFunction.toJson : TableFunction → Json
  | ⟨name, schema, isBuiltIn, arguments, aliasName⟩ =>
    .obj [("name", .str name), ("schema", optionalText schema), ("is_built_in", .bool isBuiltIn),
      ("arguments", .arr (Expr.jsonItems arguments)), ("alias", .str aliasName)]

def SetOperation.toJson : SetOperation → Json
  | ⟨operator, distinct, left, right, aliasName⟩ =>
    .obj [("kind", operator.toJson), ("distinct", .bool distinct), ("left", left.toJson),
      ("right", right.toJson), ("alias", .str aliasName)]

def Join.jsonItems : List Join → List Json
  | [] => []
  | ⟨kind, source, predicate⟩ :: js =>
    .obj [("kind", kind.toJson), ("source", source.toJson),
      ("predicate", match predicate with
        | some e => e.toJson
        | none => .null)] :: Join.jsonItems js

end

end SelectCompiler
