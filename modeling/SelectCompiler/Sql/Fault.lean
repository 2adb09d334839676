import SelectCompiler.Tree.Basic

/-!
Why a tree is refused: either its shape is wrong whatever the database, or the dialect has no way
to write it.
-/

namespace SelectCompiler

/-- A source that can only be reached through its alias. -/
inductive AliasedSource where
  | derivedTable
  | tableFunction
  | setOperation
deriving DecidableEq

def AliasedSource.name : AliasedSource → String
  | .derivedTable => "derived table"
  | .tableFunction => "table function"
  | .setOperation => "set operation"

inductive PagingPart where
  | limit
  | offset
deriving DecidableEq

def PagingPart.name : PagingPart → String
  | .limit => "limit"
  | .offset => "offset"

inductive Fault where
  | duplicateAlias (aliasName : String)
  | joinWithoutSource
  | missingAlias (source : AliasedSource)
  /-- A built-in function, yielding rows or a scalar, has a schema. -/
  | qualifiedBuiltIn (yieldsRows : Bool) (name : String)
  | niladicArguments (name : String)
  | nullabilityFlags (name : String) (arguments flags : Nat)
  | emptyValueList
  | emptyCase
  | joinPredicate (kind : JoinKind)
  | rowCount (part : PagingPart) (value : Value)
  | fractionalInteger (x : Binary64) (type : SqlType)
  | notFinite (x : Binary64)
  | applyJoin (kind : JoinKind) (dialect : String)
  | setOperation (operator : SetOperator) (distinct : Bool) (dialect : String)
  | leadingLimit (dialect : String)
deriving DecidableEq

namespace Fault

/-- Whether another dialect could write the tree. -/
def isUnsupported : Fault → Bool
  | notFinite _ | applyJoin _ _ | setOperation _ _ _ | leadingLimit _ => true
  | _ => false

def detail : Fault → String
  | duplicateAlias aliasName => "duplicate source alias '" ++ aliasName ++ "' in one SELECT"
  | joinWithoutSource => "JOIN without a FROM source"
  | missingAlias source => source.name ++ " without an alias"
  | qualifiedBuiltIn yieldsRows name =>
    "built-in " ++ (if yieldsRows then "table function " else "function ") ++ name ++
      " cannot be schema-qualified"
  | niladicArguments name => "niladic function " ++ name ++ " has arguments"
  | nullabilityFlags name arguments flags =>
    "function " ++ name ++ " has " ++ toString arguments ++ " arguments but " ++ toString flags ++
      " nullability flags"
  | emptyValueList => "IN with an empty value list"
  | emptyCase => "CASE without WHEN clauses"
  | joinPredicate kind =>
    kind.name ++ " join " ++ (if kind.takesPredicate then "requires" else "must not have") ++
      " an ON predicate"
  | rowCount part value =>
    part.name ++ " must be a non-negative integer, got " ++ value.display
  | fractionalInteger x type =>
    Layout.plain.text x ++ " is not a whole number but is declared " ++ type.name
  | notFinite x => "non-finite float " ++ Layout.plain.text x ++ " has no SQL literal"
  | applyJoin kind dialect => kind.name ++ " is not supported by dialect '" ++ dialect ++ "'"
  | setOperation operator distinct dialect =>
    operator.spelling ++ (if distinct then "" else " ALL") ++ " is not supported by dialect '" ++
      dialect ++ "'"
  | leadingLimit dialect => "dialect '" ++ dialect ++ "' has no leading row-limit syntax"

def message (f : Fault) : String :=
  (if f.isUnsupported then "Unsupported query shape: " else "Malformed expression tree: ") ++
    f.detail

end Fault

/-- What is wrong with a constant in the text: it has no written form, or a fraction against its
declared type. -/
def Literal.fault? (l : Literal) : Option Fault :=
  match l.value with
  | .float x =>
    if !x.isFinite then some (.notFinite x)
    else if l.type.isInteger && !x.isWhole then some (.fractionalInteger x l.type)
    else none
  | _ => none

end SelectCompiler
