import SelectCompiler.Dialect.Basic

/-!
One query block as text: the order of its clauses, the same in every dialect, and the place of its
row limit and offset, which is not.
-/

namespace SelectCompiler

/-- A row limit and an offset go into one clause, so that neither is written twice. -/
inductive PagingPlan (α : Type) where
  | none
  | leading (limit : α)
  | trailing (limit offset : Option α)
deriving DecidableEq

/-- A limit without an offset leads where the dialect says so. -/
def Dialect.pagingPlan {α : Type} (d : Dialect) (limit offset : Option α) : PagingPlan α :=
  match limit, offset with
  | none, none => .none
  | some l, none =>
    match d.limitPlace with
    | .leading _ => .leading l
    | .trailing => .trailing (some l) none
  | l, some k => .trailing l (some k)

/-- Limit and offset in the order in which the last clause has them. -/
def PagingForm.inOrder {α : Type} (form : PagingForm) (limit offset : Option α) : List α :=
  match form with
  | .limitOffset _ => limit.toList ++ offset.toList
  | .offsetLimit | .fetch => offset.toList ++ limit.toList

/-- The parts of a block, each already written. -/
structure Clauses where
  distinct : Bool
  projections : List (List Token)
  sources : List (List Token)
  joins : List (List Token)
  predicate : Option (List Token)
  groupBy : List (List Token)
  having : Option (List Token)
  orderings : List (List Token)
  limit : Option (List Token)
  offset : Option (List Token)

namespace Token

/-- A clause that is there when its content is. -/
def optionalClause (keywords : List String) : Option (List Token) → List Token
  | some content => clause keywords ++ content
  | none => []

/-- A clause that is there when its list is not empty. -/
def listClause (keywords : List String) (items : List (List Token)) : List Token :=
  if items.isEmpty then [] else clause keywords ++ listed items

end Token

open Token (clause words enclosed enclosedIf listed qualified optionalClause listClause)

/-- The last clause, where a limit or an offset is left for it. -/
def PagingForm.tokens (form : PagingForm) (limit offset : Option (List Token)) : List Token :=
  match form with
  | .offsetLimit => optionalClause ["OFFSET"] offset ++ optionalClause ["LIMIT"] limit
  | .limitOffset allRows =>
    clause ["LIMIT"] ++ limit.getD [.constant (.bare allRows)] ++ optionalClause ["OFFSET"] offset
  | .fetch =>
    match offset with
    | none => fetched "FIRST" limit
    | some k => clause ["OFFSET"] ++ k ++ .space :: .word "ROWS" :: fetched "NEXT" limit
where
  fetched (which : String) : Option (List Token) → List Token
    | some l => clause ["FETCH", which] ++ l ++ .space :: words ["ROWS", "ONLY"]
    | none => []

namespace Dialect

variable (d : Dialect)

def leadingTokens (limit : List Token) : List Token :=
  match d.limitPlace with
  | .leading (some form) => form.before ++ limit ++ form.after
  | _ => []

/-- A block draws from its sources, or from what the dialect has in place of none. -/
def sourceTokens (sources : List (List Token)) : List Token :=
  if sources.isEmpty then optionalClause ["FROM"] (d.emptySource.map ([.word ·]))
  else listClause ["FROM"] sources

/-- The written orderings; an offset without any takes the one of the dialect, if it has one. -/
def orderingTokens (orderings : List (List Token)) (hasOffset : Bool) : List Token :=
  if orderings.isEmpty && hasOffset then optionalClause ["ORDER", "BY"] d.fallbackOrdering
  else listClause ["ORDER", "BY"] orderings

def assemble (c : Clauses) : List Token :=
  let plan := d.pagingPlan c.limit c.offset
  [.word "SELECT", .space] ++
  (if c.distinct then [.word "DISTINCT", .space] else []) ++
  (match plan with
    | .leading limit => d.leadingTokens limit
    | _ => []) ++
  (if c.projections.isEmpty then [.constant (.bare "1")] else listed c.projections) ++
  d.sourceTokens c.sources ++
  c.joins.flatten ++
  optionalClause ["WHERE"] c.predicate ++
  listClause ["GROUP", "BY"] c.groupBy ++
  optionalClause ["HAVING"] c.having ++
  d.orderingTokens c.orderings c.offset.isSome ++
  (match plan with
    | .trailing limit offset => d.paging.tokens limit offset
    | _ => [])

end Dialect

end SelectCompiler
