import SelectCompiler.Sql.Token
import SelectCompiler.Tree.Basic

/-!
A dialect: every decision in which databases differ, and nothing else. The order of the clauses is
not among them.
-/

namespace SelectCompiler

/-- The characters around a quoted name; the closing one is doubled inside. -/
structure Quotes where
  opening : Char
  closing : Char
deriving DecidableEq

inductive PlaceholderForm where
  | unnumbered
  /-- A sign and the position, counted from one. -/
  | numbered (sign : String)
deriving DecidableEq

structure TypeNames where
  boolean : String := "BOOLEAN"
  int : String := "INTEGER"
  bigInt : String := "BIGINT"
  float : String := "DOUBLE PRECISION"
  decimal : String := "DECIMAL"
  text : String := "VARCHAR"
  date : String := "DATE"
  dateTime : String := "TIMESTAMP"
  binary : String := "VARBINARY"
deriving DecidableEq

inductive BytesForm where
  /-- As in `X'00FF'`. -/
  | hexString
  /-- As in `0x00FF`. -/
  | hexNumber
  /-- As in `'\x00FF'::bytea`. -/
  | bytea
deriving DecidableEq

structure ConstantForms where
  trueWord : String := "TRUE"
  falseWord : String := "FALSE"
  /-- Whether a constant that is declared as text has an `N` before its quotes. -/
  nationalText : Bool := false
  dateLead : String := "DATE "
  dateTimeLead : String := "TIMESTAMP "
  dateTimeMark : Char := ' '
  fraction : Fraction := .fewest
  bytes : BytesForm := .hexString
deriving DecidableEq

/-- The tokens around a row limit that stands directly after `SELECT`. -/
structure LeadingLimit where
  before : List Token
  after : List Token
deriving DecidableEq

/-- Where a row limit stands when there is no offset. -/
inductive LimitPlace where
  | trailing
  /-- After `SELECT`; a dialect may lack the form to write it. -/
  | leading (form : Option LeadingLimit)
deriving DecidableEq

/-- The last clause of a block. -/
inductive PagingForm where
  /-- Written `LIMIT l`, and `OFFSET k LIMIT l`. -/
  | offsetLimit
  /-- Written `LIMIT l OFFSET k`, with a number that stands for all rows where no limit is given. -/
  | limitOffset (allRows : String)
  /-- Written `FETCH FIRST l ROWS ONLY`, and `OFFSET k ROWS FETCH NEXT l ROWS ONLY`. -/
  | fetch
deriving DecidableEq

structure Dialect where
  name : String
  quotes : Quotes := ⟨'"', '"'⟩
  placeholder : PlaceholderForm := .unnumbered
  /-- Whether a backslash in a string constant is doubled. -/
  backslashEscapes : Bool := false
  constants : ConstantForms := {}
  typeNames : TypeNames := {}
  /-- The operator that joins strings; without one, joining is a call of `CONCAT`. -/
  concatOperator : Option String := some "||"
  /-- Whether `AS` stands before the alias of a source. -/
  aliasWord : Bool := true
  /-- What a block without sources selects from. -/
  emptySource : Option String := none
  /-- Whether `INTERSECT` and `EXCEPT` have a variant `ALL`. -/
  allVariants : Bool := true
  exceptWord : String := "EXCEPT"
  /-- Whether an operand with its own ordering or paging can be parenthesized; otherwise it becomes
  a derived table. -/
  operandParentheses : Bool := true
  apply : Bool := false
  limitPlace : LimitPlace := .trailing
  paging : PagingForm := .offsetLimit
  /-- The ordering of a block that has an offset but no ordering. -/
  fallbackOrdering : Option (List Token) := none
  /-- The schema of user-defined functions that are given without one. -/
  defaultSchema : Option String := none
deriving DecidableEq

namespace Dialect

variable (d : Dialect)

/-! ### Names, strings and placeholders -/

/-- Characters with one of them doubled. -/
def doubling (isSpecial : Char → Bool) (cs : List Char) : List Char :=
  cs.flatMap fun c => if isSpecial c then [c, c] else [c]

def quoteName (name : String) : String :=
  String.ofList (d.quotes.opening :: doubling (· == d.quotes.closing) name.toList ++
    [d.quotes.closing])

def quoteText (text : String) : String :=
  String.ofList ('\'' ::
    doubling (fun c => c == '\'' || (d.backslashEscapes && c == '\\')) text.toList ++ ['\''])

/-- The placeholder at a position, counted from one. -/
def placeholderText (position : Nat) : String :=
  match d.placeholder with
  | .unnumbered => "?"
  | .numbered sign => sign ++ toString position

/-! ### Types and constants -/

/-- The target name of a cast; a custom name is the database's own. -/
def typeName : SqlType → String
  | .boolean => d.typeNames.boolean
  | .int => d.typeNames.int
  | .bigInt => d.typeNames.bigInt
  | .float => d.typeNames.float
  | .decimal => d.typeNames.decimal
  | .text => d.typeNames.text
  | .date => d.typeNames.date
  | .dateTime => d.typeNames.dateTime
  | .binary => d.typeNames.binary
  | .custom name => name

def typeToken : SqlType → Token
  | .custom name => .verbatim name
  | type => .word (d.typeName type)

def boolWord (b : Bool) : String := if b then d.constants.trueWord else d.constants.falseWord

/-- A constant of the dialect. A number that is declared an integer never has an exponent. -/
def constant (value : Value) (type : SqlType) : Constant :=
  match value with
  | .null => .bare "NULL"
  | .bool b => .bare (d.boolWord b)
  | .int n => .bare (toString n.toInt)
  | .float x => .bare ((if type.isInteger then Layout.plain else Layout.scientific).text x)
  | .text s =>
    .quoted (if d.constants.nationalText && type == .text then "N" else "") s ""
  | .date date => .quoted d.constants.dateLead date.text ""
  | .dateTime dt =>
    .quoted d.constants.dateTimeLead
      (String.ofList (dt.characters d.constants.dateTimeMark d.constants.fraction)) ""
  | .bytes bytes =>
    match d.constants.bytes with
    | .hexString => .quoted "X" (upperHex bytes) ""
    | .hexNumber => .bare ("0x" ++ upperHex bytes)
    | .bytea => .quoted "" ("\\x" ++ upperHex bytes) "::bytea"

def constantText : Constant → String
  | .bare text => text
  | .quoted lead content tail => lead ++ d.quoteText content ++ tail

/-! ### Operators, functions and set operations -/

def spelling (op : BinaryOp) : String :=
  match op with
  | .concat => d.concatOperator.getD "||"
  | op => op.spelling

def schemaOf (isBuiltIn : Bool) (schema : Option String) : Option String :=
  match givenName schema with
  | some s => some s
  | none => if isBuiltIn then none else givenName d.defaultSchema

/-- The call with the default schema, where that schema applies. -/
def qualifyCall? (call : FunctionCall) : Option FunctionCall :=
  if call.isBuiltIn || (givenName call.schema).isSome then none
  else d.defaultSchema.map fun schema => { call with schema := some schema }

def qualifyTableFunction? (call : TableFunction) : Option TableFunction :=
  if call.isBuiltIn || (givenName call.schema).isSome then none
  else d.defaultSchema.map fun schema => { call with schema := some schema }

def supports (operator : SetOperator) (distinct : Bool) : Bool :=
  operator == .union || distinct || d.allVariants

def setWord : SetOperator → String
  | .except => d.exceptWord
  | operator => operator.spelling

/-! ### Separators -/

def aliasLead : List Token := if d.aliasWord then Token.clause ["AS"] else [.space]

/-- What opens an operand that has its own ordering or paging. -/
def operandLead : List Token :=
  if d.operandParentheses then [.symbol "("]
  else [.word "SELECT", .space, .symbol "*", .space, .word "FROM", .space, .symbol "("]

end Dialect

end SelectCompiler
