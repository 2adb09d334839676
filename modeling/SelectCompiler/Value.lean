import SelectCompiler.Calendar.DateTime
import SelectCompiler.Numeral.Decimal

/-!
The constants that a tree carries, and the types that it declares for them.
-/

namespace SelectCompiler

/-- A declared type; `custom` names a type of the database itself. -/
inductive SqlType where
  | boolean
  | int
  | bigInt
  | float
  | decimal
  | text
  | date
  | dateTime
  | binary
  | custom (name : String)
deriving DecidableEq

namespace SqlType

/-- Whether values of the type are whole numbers. -/
def isInteger : SqlType → Bool
  | int | bigInt => true
  | _ => false

def name : SqlType → String
  | boolean => "BOOLEAN"
  | int => "INTEGER"
  | bigInt => "BIGINT"
  | float => "DOUBLE PRECISION"
  | decimal => "DECIMAL"
  | text => "VARCHAR"
  | date => "DATE"
  | dateTime => "TIMESTAMP"
  | binary => "VARBINARY"
  | custom name => name

end SqlType

inductive Value where
  | null
  | bool (b : Bool)
  | int (n : Int64)
  | float (x : Binary64)
  | text (s : String)
  | date (d : Date)
  | dateTime (dt : DateTime)
  | bytes (bs : List UInt8)
deriving DecidableEq

namespace Value

/-- The type of a value that is declared without one. -/
def naturalType : Value → SqlType
  | null => .custom "NULL"
  | bool _ => .boolean
  | int _ => .bigInt
  | float _ => .float
  | text _ => .text
  | date _ => .date
  | dateTime _ => .dateTime
  | bytes _ => .binary

/-- The value as a number of rows: only an integer that is not negative is one. -/
def rowCount? : Value → Option Nat
  | int n => if 0 ≤ n.toInt then some n.toInt.toNat else none
  | _ => none

/-- The value as messages and listings show it, not as a database reads it. -/
def display : Value → String
  | null => "NULL"
  | bool b => if b then "true" else "false"
  | int n => toString n.toInt
  | float x => Layout.plain.text x
  | text s => "'" ++ s ++ "'"
  | date d => d.text
  | dateTime dt => dt.text ' '
  | bytes bs => "<" ++ toString bs.length ++ " bytes>"

end Value

end SelectCompiler
