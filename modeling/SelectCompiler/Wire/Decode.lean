import SelectCompiler.Wire.Basic
import SelectCompiler.Json.Reader

/-!
Reading a tree from JSON. A record may be an object, unknown members aside, or an array of its
fields. A variant with fields of its own is an object; in a text it may be an array of them, too.
What is missing is an error unless it is optional or belongs to a query block, all of whose fields
have defaults.
-/

namespace SelectCompiler

open Json (required optional defaulted)

def Column.ofJson? (j : Json) : Option Column :=
  match j.record? ["name", "table_alias", "ty", "nullable"] with
  | some [name, table, type, nullable] => do
    return {
      name := ← required Json.str? name
      table := ← optional Json.str? table
      type := ← required SqlType.ofJson? type
      nullable := ← required Json.bool? nullable }
  | _ => none

def Literal.ofJson? (j : Json) : Option Literal :=
  match j.record? ["value", "ty"] with
  | some [value, type] => do
    return {
      value := ← required Value.ofJson? value
      type := ← required SqlType.ofJson? type }
  | _ => none

def Parameter.ofJson? (j : Json) : Option Parameter :=
  match j.record? ["name", "value", "ty"] with
  | some [name, value, type] => do
    return {
      name := ← required Json.str? name
      value := ← required Value.ofJson? value
      type := ← required SqlType.ofJson? type }
  | _ => none

section

variable (listed : Bool)

mutual

/-- Reads an expression through at most `depth` records. -/
def Expr.read : (depth : Nat) → Json → Option Expr
  | 0, _ => none
  | depth + 1, j =>
    match j.tagged? with
    | some ("Column", payload) => (Column.ofJson? payload).map .column
    | some ("Literal", payload) => (Literal.ofJson? payload).map .literal
    | some ("Parameter", payload) => (Parameter.ofJson? payload).map .parameter
    | some ("Unary", payload) =>
      match payload.fields? listed ["op", "operand", "ty"] with
      | some [op, operand, type] => do
        return .unary (← required UnaryOp.ofJson? op) (← required (Expr.read depth) operand)
          (← required SqlType.ofJson? type)
      | _ => none
    | some ("Binary", payload) =>
      match payload.fields? listed ["left", "op", "right", "ty"] with
      | some [left, op, right, type] => do
        return .binary (← required (Expr.read depth) left) (← required BinaryOp.ofJson? op)
          (← required (Expr.read depth) right) (← required SqlType.ofJson? type)
      | _ => none
    | some ("Function", payload) => (FunctionCall.read depth payload).map .function
    | some ("Subquery", payload) => (Select.read depth payload).map .subquery
    | some ("Exists", payload) =>
      match payload.fields? listed ["subquery", "negated"] with
      | some [subquery, negated] => do
        return .exists (← required (Select.read depth) subquery) (← required Json.bool? negated)
      | _ => none
    | some ("In", payload) =>
      match payload.fields? listed ["item", "values", "negated"] with
      | some [item, values, negated] => do
        let item ← required (Expr.read depth) item
        let negated ← required Json.bool? negated
        match values.bind Json.tagged? with
        | some ("List", list) => return .inList item (← list.list? (Expr.read depth)) negated
        | some ("Subquery", select) => return .inSelect item (← Select.read depth select) negated
        | _ => none
      | _ => none
    | some ("Like", payload) =>
      match payload.fields? listed ["item", "pattern", "escape", "negated"] with
      | some [item, pattern, escape, negated] => do
        return .like (← required (Expr.read depth) item) (← required (Expr.read depth) pattern)
          (← optional (Expr.read depth) escape) (← required Json.bool? negated)
      | _ => none
    | some ("Case", payload) =>
      match payload.fields? listed ["operand", "when_clauses", "else_value", "ty"] with
      | some [operand, whens, otherwise, type] => do
        return .case (← optional (Expr.read depth) operand)
          (← required (Json.list? (Expr.readWhen depth)) whens)
          (← optional (Expr.read depth) otherwise) (← required SqlType.ofJson? type)
      | _ => none
    | some ("Fragment", payload) => payload.str?.map .fragment
    | _ => none

def Expr.readWhen : (depth : Nat) → Json → Option (Expr × Expr)
  | 0, _ => none
  | depth + 1, j =>
    match j with
    | .arr [condition, result] => do
      return (← Expr.read depth condition, ← Expr.read depth result)
    | _ => none

def FunctionCall.read : (depth : Nat) → Json → Option FunctionCall
  | 0, _ => none
  | depth + 1, j =>
    match j.record? ["name", "schema", "is_built_in", "is_niladic", "is_nullable",
      "arguments_propagate_nullability", "arguments", "ty"] with
    | some [name, schema, isBuiltIn, isNiladic, isNullable, propagatesNull, arguments, type] => do
      return {
        name := ← required Json.str? name
        schema := ← optional Json.str? schema
        isBuiltIn := ← required Json.bool? isBuiltIn
        isNiladic := ← required Json.bool? isNiladic
        isNullable := ← required Json.bool? isNullable
        propagatesNull := ← required (Json.list? Json.bool?) propagatesNull
        arguments := ← required (Json.list? (Expr.read depth)) arguments
        type := ← required SqlType.ofJson? type }
    | _ => none

def Projection.read : (depth : Nat) → Json → Option Projection
  | 0, _ => none
  | depth + 1, j =>
    match j.record? ["expr", "alias"] with
    | some [expr, aliasName] => do
      return ⟨← required (Expr.read depth) expr, ← required Json.str? aliasName⟩
    | _ => none

def SortTerm.read : (depth : Nat) → Json → Option SortTerm
  | 0, _ => none
  | depth + 1, j =>
    match j.record? ["expr", "ascending"] with
    | some [expr, ascending] => do
      return ⟨← required (Expr.read depth) expr, ← required Json.bool? ascending⟩
    | _ => none

def Select.read : (depth : Nat) → Json → Option Select
  | 0, _ => none
  | depth + 1, j =>
    match j.partialRecord? ["distinct", "projections", "from", "joins", "predicate", "group_by",
      "having", "orderings", "limit", "offset"] with
    | some [distinct, projections, sources, joins, predicate, groupBy, having, orderings, limit,
        offset] => do
      return {
        distinct := ← defaulted Json.bool? false distinct
        projections := ← defaulted (Json.list? (Projection.read depth)) [] projections
        sources := ← defaulted (Json.list? (Source.read depth)) [] sources
        joins := ← defaulted (Json.list? (Join.read depth)) [] joins
        predicate := ← optional (Expr.read depth) predicate
        groupBy := ← defaulted (Json.list? (Expr.read depth)) [] groupBy
        having := ← optional (Expr.read depth) having
        orderings := ← defaulted (Json.list? (SortTerm.read depth)) [] orderings
        limit := ← optional (Expr.read depth) limit
        offset := ← optional (Expr.read depth) offset }
    | _ => none

def Source.read : (depth : Nat) → Json → Option Source
  | 0, _ => none
  | depth + 1, j =>
    match j.tagged? with
    | some ("Table", payload) =>
      match payload.fields? listed ["name", "schema", "alias"] with
      | some [name, schema, aliasName] => do
        return .table (← required Json.str? name) (← optional Json.str? schema)
          (← optional Json.str? aliasName)
      | _ => none
    | some ("Subquery", payload) =>
      match payload.fields? listed ["select", "alias"] with
      | some [select, aliasName] => do
        return .derived (← required (Select.read depth) select) (← required Json.str? aliasName)
      | _ => none
    | some ("TableFunction", payload) => (TableFunction.read depth payload).map .function
    | some ("SetOperation", payload) => (SetOperation.read depth payload).map .set
    | _ => none

def TableFunction.read : (depth : Nat) → Json → Option TableFunction
  | 0, _ => none
  | depth + 1, j =>
    match j.record? ["name", "schema", "is_built_in", "arguments", "alias"] with
    | some [name, schema, isBuiltIn, arguments, aliasName] => do
      return {
        name := ← required Json.str? name
        schema := ← optional Json.str? schema
        isBuiltIn := ← required Json.bool? isBuiltIn
        arguments := ← required (Json.list? (Expr.read depth)) arguments
        aliasName := ← required Json.str? aliasName }
    | _ => none

def SetOperation.read : (depth : Nat) → Json → Option SetOperation
  | 0, _ => none
  | depth + 1, j =>
    match j.record? ["kind", "distinct", "left", "right", "alias"] with
    | some [operator, distinct, left, right, aliasName] => do
      return {
        operator := ← required SetOperator.ofJson? operator
        distinct := ← required Json.bool? distinct
        left := ← required (Select.read depth) left
        right := ← required (Select.read depth) right
        aliasName := ← required Json.str? aliasName }
    | _ => none

def Join.read : (depth : Nat) → Json → Option Join
  | 0, _ => none
  | depth + 1, j =>
    match j.record? ["kind", "source", "predicate"] with
    | some [kind, source, predicate] => do
      return {
        kind := ← required JoinKind.ofJson? kind
        source := ← required (Source.read depth) source
        predicate := ← optional (Expr.read depth) predicate }
    | _ => none

end

end

def Expr.ofJson? (j : Json) : Option Expr := Expr.read false j.depth j

def FunctionCall.ofJson? (j : Json) : Option FunctionCall := FunctionCall.read false j.depth j

def TableFunction.ofJson? (j : Json) : Option TableFunction := TableFunction.read false j.depth j

def Source.ofJson? (j : Json) : Option Source := Source.read false j.depth j

def Select.ofJson? (j : Json) : Option Select := Select.read false j.depth j

/-- Reads a query from JSON text, where the fields of a variant may be listed. -/
def Select.ofText? (text : String) : Option Select :=
  (Json.ofText? text).bind fun j => Select.read true j.depth j

end SelectCompiler
