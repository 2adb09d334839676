import SelectCompiler.Dialect.Basic

/-!
The five databases with a dialect of their own, and the names they go by.
-/

namespace SelectCompiler

inductive Database where
  | postgres
  | mysql
  | sqlite
  | sqlServer
  | oracle
deriving DecidableEq

namespace Database

def all : List Database := [postgres, mysql, sqlite, sqlServer, oracle]

def id : Database → String
  | postgres => "postgres"
  | mysql => "mysql"
  | sqlite => "sqlite"
  | sqlServer => "sqlserver"
  | oracle => "oracle"

/-- The names that a database goes by, its registered name first. -/
def names : Database → List String
  | postgres => ["postgres", "postgresql", "pg"]
  | mysql => ["mysql", "mariadb"]
  | sqlite => ["sqlite"]
  | sqlServer => ["sqlserver", "mssql", "tsql"]
  | oracle => ["oracle"]

/-- The database with a name, in any case of ASCII letters. -/
def ofName? (name : String) : Option Database := all.find? (·.names.contains name.toLower)

end Database

namespace Dialect

def postgres : Dialect where
  name := "postgres"
  placeholder := .numbered "$"
  constants := { bytes := .bytea }
  typeNames :=
    { boolean := "boolean", int := "integer", bigInt := "bigint", float := "double precision",
      decimal := "numeric", text := "text", date := "date", dateTime := "timestamp",
      binary := "bytea" }

/-- Names stand in backticks. The operator `||` is a logical one in this dialect, so strings are
joined by a call. -/
def mysql : Dialect where
  name := "mysql"
  quotes := ⟨'\x60', '\x60'⟩
  backslashEscapes := true
  typeNames :=
    { boolean := "SIGNED", int := "SIGNED", bigInt := "SIGNED", float := "DOUBLE",
      decimal := "DECIMAL(65, 30)", text := "CHAR", date := "DATE", dateTime := "DATETIME",
      binary := "BINARY" }
  concatOperator := none
  paging := .limitOffset "18446744073709551615"

/-- Dates are kept as text, and operands of set operations cannot be parenthesized. -/
def sqlite : Dialect where
  name := "sqlite"
  constants := { trueWord := "1", falseWord := "0", dateLead := "", dateTimeLead := "" }
  typeNames :=
    { boolean := "INTEGER", int := "INTEGER", bigInt := "INTEGER", float := "REAL",
      decimal := "NUMERIC", text := "TEXT", date := "TEXT", dateTime := "TEXT", binary := "BLOB" }
  allVariants := false
  operandParentheses := false
  paging := .limitOffset "-1"

/-- An offset needs an ordering in this dialect, and a limit alone stands after `SELECT`. -/
def sqlServer (defaultSchema : String) : Dialect where
  name := "sqlserver"
  quotes := ⟨'[', ']'⟩
  placeholder := .numbered "@p"
  constants :=
    { trueWord := "1", falseWord := "0", nationalText := true, dateLead := "", dateTimeLead := "",
      dateTimeMark := 'T', fraction := .milliseconds, bytes := .hexNumber }
  typeNames :=
    { boolean := "bit", int := "int", bigInt := "bigint", float := "float",
      decimal := "decimal(18, 2)", text := "nvarchar(max)", date := "date",
      dateTime := "datetime2", binary := "varbinary(max)" }
  concatOperator := some "+"
  allVariants := false
  apply := true
  limitPlace := .leading (some ⟨[.word "TOP", .symbol "("], [.symbol ")", .space]⟩)
  paging := .fetch
  fallbackOrdering := some (Token.enclosed [.word "SELECT", .space, .constant (.bare "1")])
  defaultSchema := some defaultSchema

/-- This dialect does not allow `AS` before the alias of a source. -/
def oracle : Dialect where
  name := "oracle"
  placeholder := .numbered ":"
  constants := { trueWord := "1", falseWord := "0" }
  typeNames :=
    { boolean := "NUMBER(1)", int := "NUMBER(10)", bigInt := "NUMBER(19)",
      float := "BINARY_DOUBLE", decimal := "NUMBER", text := "NVARCHAR2(2000)", date := "DATE",
      dateTime := "TIMESTAMP", binary := "BLOB" }
  aliasWord := false
  emptySource := some "DUAL"
  allVariants := false
  exceptWord := "MINUS"
  apply := true
  paging := .fetch

end Dialect

/-- The schema of unqualified functions on SQL Server, unless another is configured. -/
def Database.standardSchema : String := "dbo"

def Database.dialect : Database → Dialect
  | .postgres => .postgres
  | .mysql => .mysql
  | .sqlite => .sqlite
  | .sqlServer => .sqlServer standardSchema
  | .oracle => .oracle

end SelectCompiler
