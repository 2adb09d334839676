import SelectCompiler.Sql.Clauses
import SelectCompiler.Sql.Fault
import SelectCompiler.Sql.Writing

/-!
All faults of a tree, in the order in which its text would reach them. A tree without faults can be
written; of several faults the first is the one that is reported.
-/

namespace SelectCompiler

/-- The members of a list that stand there a second time. -/
def repeats {α : Type} [BEq α] : (before : List α) → List α → List α
  | _, [] => []
  | before, x :: xs =>
    if before.contains x then x :: repeats before xs else repeats (x :: before) xs

/-- Sources of one block need different aliases. -/
def scopeFaults (sources : List Source) : List Fault :=
  (repeats [] (sources.filterMap Source.alias?)).map .duplicateAlias

/-- A limit or an offset that is known must be a number of rows. -/
def rowCountFaults (part : PagingPart) : Expr → List Fault
  | .literal l => if l.value.rowCount?.isSome then [] else [.rowCount part l.value]
  | .parameter p => if p.value.rowCount?.isSome then [] else [.rowCount part p.value]
  | _ => []

def aliasFaults (source : AliasedSource) (aliasName : String) : List Fault :=
  if aliasName == "" then [.missingAlias source] else []

def literalFaults (o : Options) (l : Literal) : List Fault :=
  if o.bindLiterals then [] else l.fault?.toList

/-- What is wrong with a call, its arguments aside. -/
def callFaults (name : String) (schema : Option String) (isBuiltIn isNiladic : Bool)
    (arguments flags : Nat) : List Fault :=
  (if isBuiltIn && (givenName schema).isSome then [.qualifiedBuiltIn false name] else []) ++
  (if isNiladic && arguments != 0 then [.niladicArguments name] else []) ++
  (if !isNiladic && flags != arguments then [.nullabilityFlags name arguments flags] else [])

/-- A join has a predicate exactly when its kind takes one. -/
def joinFaults (d : Dialect) (kind : JoinKind) (hasPredicate : Bool) : List Fault :=
  (if kind.takesPredicate != hasPredicate then [.joinPredicate kind] else []) ++
  (match kind with
    | .crossApply | .outerApply => if d.apply then [] else [.applyJoin kind d.name]
    | _ => [])

namespace Dialect

variable (d : Dialect)

/-- What is wrong with a limit that stands after `SELECT`, its own parts aside. -/
def leadingFaults (limit offset : Option Expr) : List Fault :=
  match d.pagingPlan limit offset with
  | .leading l =>
    rowCountFaults .limit l ++
      (match d.limitPlace with
        | .leading none => [.leadingLimit d.name]
        | _ => [])
  | _ => []

/-- What is wrong with a limit and an offset in the last clause, their own parts aside. -/
def trailingFaults (limit offset : Option Expr) : List Fault :=
  match d.pagingPlan limit offset with
  | .trailing l k =>
    (match l with
      | some e => rowCountFaults .limit e
      | none => []) ++
    (match k with
      | some e => rowCountFaults .offset e
      | none => [])
  | _ => []

/-- The parts of limit and offset, as far as they stand after `SELECT`. -/
def leadingParts {α : Type} (limit offset : Option (List α)) : List α :=
  match d.pagingPlan limit offset with
  | .leading l => l
  | _ => []

/-- The parts of limit and offset, as far as they stand in the last clause. -/
def trailingParts {α : Type} (limit offset : Option (List α)) : List α :=
  match d.pagingPlan limit offset with
  | .trailing l k => (d.paging.inOrder l k).flatten
  | _ => []

end Dialect

mutual

def Expr.faults (d : Dialect) (o : Options) : Expr → List Fault
  | .column _ => []
  | .literal l => literalFaults o l
  | .parameter _ => []
  | .unary _ operand _ => operand.faults d o
  | .binary left _ right _ => left.faults d o ++ right.faults d o
  | .function ⟨name, schema, isBuiltIn, isNiladic, _, propagatesNull, arguments, _⟩ =>
    callFaults name schema isBuiltIn isNiladic arguments.length propagatesNull.length ++
      Expr.faultsEach d o arguments
  | .subquery select => select.faults d o
  | .exists subquery _ => subquery.faults d o
  | .inList item values _ =>
    item.faults d o ++ (if values.isEmpty then [.emptyValueList] else []) ++
      Expr.faultsEach d o values
  | .inSelect item values _ => item.faults d o ++ values.faults d o
  | .like item pattern escape _ =>
    item.faults d o ++ pattern.faults d o ++
      match escape with
      | some e => e.faults d o
      | none => []
  | .case operand whens otherwise _ =>
    (if whens.isEmpty then [.emptyCase] else []) ++
      (match operand with
        | some e => e.faults d o
        | none => []) ++
      Expr.faultsWhens d o whens ++
      match otherwise with
      | some e => e.faults d o
      | none => []
  | .fragment _ => []

def Expr.faultsEach (d : Dialect) (o : Options) : List Expr → List Fault
  | [] => []
  | e :: es => e.faults d o ++ Expr.faultsEach d o es

def Expr.faultsWhens (d : Dialect) (o : Options) : List (Expr × Expr) → List Fault
  | [] => []
  | (condition, result) :: whens =>
    condition.faults d o ++ result.faults d o ++ Expr.faultsWhens d o whens

def Projection.faultsEach (d : Dialect) (o : Options) : List Projection → List Fault
  | [] => []
  | ⟨expr, _⟩ :: ps => expr.faults d o ++ Projection.faultsEach d o ps

def SortTerm.faultsEach (d : Dialect) (o : Options) : List SortTerm → List Fault
  | [] => []
  | ⟨expr, _⟩ :: ts => expr.faults d o ++ SortTerm.faultsEach d o ts

def Select.faults (d : Dialect) (o : Options) : Select → List Fault
  | ⟨_, projections, sources, joins, predicate, groupBy, having, orderings, limit, offset⟩ =>
    let limitFaults := match limit with
      | some e => some (e.faults d o)
      | none => none
    let offsetFaults := match offset with
      | some e => some (e.faults d o)
      | none => none
    scopeFaults (sources ++ joins.map Join.source) ++
    d.leadingFaults limit offset ++
    d.leadingParts limitFaults offsetFaults ++
    Projection.faultsEach d o projections ++
    (if sources.isEmpty && !joins.isEmpty then [.joinWithoutSource] else []) ++
    Source.faultsEach d o sources ++
    Join.faultsEach d o joins ++
    (match predicate with
      | some e => e.faults d o
      | none => []) ++
    Expr.faultsEach d o groupBy ++
    (match having with
      | some e => e.faults d o
      | none => []) ++
    SortTerm.faultsEach d o orderings ++
    d.trailingFaults limit offset ++
    d.trailingParts limitFaults offsetFaults

def Source.faults (d : Dialect) (o : Options) : Source → List Fault
  | .table _ _ _ => []
  | .derived select aliasName => aliasFaults .derivedTable aliasName ++ select.faults d o
  | .function ⟨name, schema, isBuiltIn, arguments, aliasName⟩ =>
    aliasFaults .tableFunction aliasName ++
      (if isBuiltIn && (givenName schema).isSome then [.qualifiedBuiltIn true name] else []) ++
      Expr.faultsEach d o arguments
  | .set ⟨operator, distinct, left, right, aliasName⟩ =>
    aliasFaults .setOperation aliasName ++
      (if d.supports operator distinct then [] else [.setOperation operator distinct d.name]) ++
      left.faults d o ++ right.faults d o

def Source.faultsEach (d : Dialect) (o : Options) : List Source → List Fault
  | [] => []
  | s :: ss => s.faults d o ++ Source.faultsEach d o ss

def Join.faultsEach (d : Dialect) (o : Options) : List Join → List Fault
  | [] => []
  | ⟨kind, source, predicate⟩ :: js =>
    joinFaults d kind predicate.isSome ++ source.faults d o ++
      (match predicate with
        | some e => e.faults d o
        | none => []) ++
      Join.faultsEach d o js

end

end SelectCompiler
