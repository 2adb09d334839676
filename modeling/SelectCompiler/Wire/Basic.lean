import SelectCompiler.Json.Basic
import SelectCompiler.Sql.Command
import SelectCompiler.Dialect.Database
import SelectCompiler.Numeral.Int64

/-!
The names that types, operators and kinds have in JSON, and the JSON form of values and bindings. A
name without data is a string; what carries data is an object whose one member is named after it.
-/

namespace SelectCompiler

/-- The alternative of a list that goes by a name. -/
def named? {α : Type} (nameOf : α → String) (alternatives : List α) (name : String) : Option α :=
  alternatives.find? fun a => nameOf a == name

/-! ### Types -/

namespace SqlType

def plain : List SqlType :=
  [boolean, int, bigInt, float, decimal, text, date, dateTime, binary]

def wireName : SqlType → String
  | boolean => "Boolean"
  | int => "Int"
  | bigInt => "BigInt"
  | float => "Float"
  | decimal => "Decimal"
  | text => "Text"
  | date => "Date"
  | dateTime => "DateTime"
  | binary => "Binary"
  | custom _ => "Custom"

def toJson : SqlType → Json
  | custom name => .obj [("Custom", .str name)]
  | type => .str type.wireName

def ofJson? (j : Json) : Option SqlType :=
  match j.tagged? with
  | some ("Custom", payload) => payload.str?.map custom
  | _ => j.tag?.bind (named? wireName plain)

end SqlType

/-! ### Values -/

namespace Value

def toJson : Value → Json
  | null => .str "Null"
  | bool b => .obj [("Bool", .bool b)]
  | int n => .obj [("Int", .int n.toInt)]
  | float x => .obj [("Float", if x.isFinite then .float x else .null)]
  | text s => .obj [("Text", .str s)]
  | date d => .obj [("Date", .str d.text)]
  | dateTime dt => .obj [("DateTime", .str (dt.text 'T'))]
  | bytes bs => .obj [("Bytes", .arr (bs.map fun b => .int b.toNat))]

def byte? (n : Int) : Option UInt8 :=
  if 0 ≤ n ∧ n < 256 then some (UInt8.ofNat n.toNat) else none

def ofJson? (j : Json) : Option Value :=
  match j.tagged? with
  | some ("Bool", payload) => payload.bool?.map bool
  | some ("Int", payload) => (payload.int?.bind int64?).map int
  | some ("Float", payload) => payload.float?.map float
  | some ("Text", payload) => payload.str?.map text
  | some ("Date", payload) => (payload.str?.bind Date.ofText?).map date
  | some ("DateTime", payload) => (payload.str?.bind DateTime.ofText?).map dateTime
  | some ("Bytes", payload) => (payload.list? fun j => j.int?.bind byte?).map bytes
  | _ => if j.tag? = some "Null" then some null else none

end Value

/-! ### Operators and kinds -/

namespace UnaryOp

def plain : List UnaryOp := [not, negate, isNull, isNotNull]

def wireName : UnaryOp → String
  | not => "Not"
  | negate => "Negate"
  | isNull => "IsNull"
  | isNotNull => "IsNotNull"
  | cast _ => "Cast"

def toJson : UnaryOp → Json
  | cast target => .obj [("Cast", target.toJson)]
  | op => .str op.wireName

def ofJson? (j : Json) : Option UnaryOp :=
  match j.tagged? with
  | some ("Cast", payload) => (SqlType.ofJson? payload).map cast
  | _ => j.tag?.bind (named? wireName plain)

end UnaryOp

namespace BinaryOp

def all : List BinaryOp :=
  [add, subtract, multiply, divide, modulo, concat, and, or, equal, notEqual, lessThan,
    lessThanOrEqual, greaterThan, greaterThanOrEqual, bitwiseAnd, bitwiseOr]

def wireName : BinaryOp → String
  | add => "Add"
  | subtract => "Subtract"
  | multiply => "Multiply"
  | divide => "Divide"
  | modulo => "Modulo"
  | concat => "Concat"
  | and => "And"
  | or => "Or"
  | equal => "Equal"
  | notEqual => "NotEqual"
  | lessThan => "LessThan"
  | lessThanOrEqual => "LessThanOrEqual"
  | greaterThan => "GreaterThan"
  | greaterThanOrEqual => "GreaterThanOrEqual"
  | bitwiseAnd => "BitwiseAnd"
  | bitwiseOr => "BitwiseOr"

def toJson (op : BinaryOp) : Json := .str op.wireName

def ofJson? (j : Json) : Option BinaryOp := j.tag?.bind (named? wireName all)

end BinaryOp

namespace SetOperator

def wireName : SetOperator → String
  | union => "Union"
  | intersect => "Intersect"
  | except => "Except"

def toJson (operator : SetOperator) : Json := .str operator.wireName

def ofJson? (j : Json) : Option SetOperator :=
  j.tag?.bind (named? wireName [union, intersect, except])

end SetOperator

namespace JoinKind

def toJson (kind : JoinKind) : Json := .str kind.name

def ofJson? (j : Json) : Option JoinKind :=
  j.tag?.bind (named? name [inner, left, cross, crossApply, outerApply])

end JoinKind

namespace Database

def toJson (db : Database) : Json := .str db.id

def ofJson? (j : Json) : Option Database := j.tag?.bind (named? id all)

end Database

/-! ### Bindings, commands and options -/

def optionalText : Option String → Json
  | some s => .str s
  | none => .null

namespace Binding

def toJson (b : Binding) : Json :=
  .obj [("name", optionalText b.name), ("value", b.value.toJson), ("ty", b.type.toJson)]

def ofJson? (j : Json) : Option Binding :=
  match j.record? ["name", "value", "ty"] with
  | some [name, value, type] => do
    return {
      name := ← Json.optional Json.str? name
      value := ← Json.required Value.ofJson? value
      type := ← Json.required SqlType.ofJson? type }
  | _ => none

end Binding

namespace Command

def toJson (c : Command) : Json :=
  .obj [("sql", .str c.sql), ("parameters", .arr (c.parameters.map Binding.toJson))]

def ofJson? (j : Json) : Option Command :=
  match j.record? ["sql", "parameters"] with
  | some [sql, parameters] => do
    return {
      sql := ← Json.required Json.str? sql
      parameters := ← Json.required (Json.list? Binding.ofJson?) parameters }
  | _ => none

end Command

namespace Options

def toJson (o : Options) : Json := .obj [("parameterize_literals", .bool o.bindLiterals)]

def ofJson? (j : Json) : Option Options :=
  match j.partialRecord? ["parameterize_literals"] with
  | some [bindLiterals] => do
    return { bindLiterals := ← Json.defaulted Json.bool? false bindLiterals }
  | _ => none

end Options

end SelectCompiler
