import SelectCompiler.Proofs.Drafts.Steps

/-!
Trees written into drafts. The checks of a node are made where the text reaches them, and a part is
written into the same draft as the text around it.
-/

namespace SelectCompiler

open Drafting

/-! ### The parts of a block -/

/-- A block without projections selects a number. -/
def Drafting.putProjections (projections : List Drafting) : Drafting :=
  if projections.isEmpty then put "1" else listed projections

namespace Dialect

variable (d : Dialect)

/-- The alias of a projection; a column needs none to keep its own name. -/
def putProjectionAlias (expr : Expr) (aliasName : String) : Drafting :=
  let ownName := match expr with
    | .column c => c.name == aliasName
    | _ => false
  if aliasName != "" && !ownName then do
    put " AS "
    d.putName aliasName
  else pure ()

/-- The sources of a block, or what the dialect has in place of none. Joins need a source. -/
def putSources (sources : List Drafting) (isJoined : Bool) : Drafting :=
  if !sources.isEmpty then do
    put " FROM "
    listed sources
  else if isJoined then refuse [.joinWithoutSource]
  else optionalClause " FROM " (d.emptySource.map put)

def putOrderings (orderings : List Drafting) (hasOffset : Bool) : Drafting :=
  if !orderings.isEmpty then do
    put " ORDER BY "
    listed orderings
  else if hasOffset then
    optionalClause " ORDER BY " (d.fallbackOrdering.map fun ts => put (d.textOf 1 ts))
  else pure ()

/-- The limit after `SELECT`, where the dialect has it there. -/
def putLeading (limit offset : Option Drafting) : Drafting :=
  match d.pagingPlan limit offset, d.limitPlace with
  | .leading l, .leading (some form) => do
    put (d.textOf 1 form.before)
    l
    put (d.textOf 1 form.after)
  | _, _ => pure ()

end Dialect

namespace PagingForm

def putFetched (lead : String) (limit : Option Drafting) : Drafting :=
  match limit with
  | some l => do
    put lead
    l
    put " ROWS ONLY"
  | none => pure ()

def put (form : PagingForm) (limit offset : Option Drafting) : Drafting :=
  match form with
  | .offsetLimit => do
    optionalClause " OFFSET " offset
    optionalClause " LIMIT " limit
  | .limitOffset allRows => do
    Drafting.put " LIMIT "
    limit.getD (Drafting.put allRows)
    optionalClause " OFFSET " offset
  | .fetch =>
    match offset with
    | some k => do
      Drafting.put " OFFSET "
      k
      Drafting.put " ROWS"
      putFetched " FETCH NEXT " limit
    | none => putFetched " FETCH FIRST " limit

end PagingForm

/-- The last clause, where a limit or an offset is left for it. -/
def Dialect.putTrailing (d : Dialect) (limit offset : Option Drafting) : Drafting :=
  match d.pagingPlan limit offset with
  | .trailing l k => d.paging.put l k
  | _ => pure ()

/-- An operand of a set operation. Its own ordering and paging must stay inside. -/
def Dialect.putOperand (d : Dialect) (paged : Bool) (operand : Drafting) : Drafting :=
  if paged then do
    put (if d.operandParentheses then "(" else "SELECT * FROM (")
    operand
    put ")"
  else operand

/-! ### Trees -/

mutual

def Expr.draft (d : Dialect) (o : Options) : Expr → Drafting
  | .column c => d.putQualified (givenName c.table) (d.putName c.name)
  | .literal l =>
    if o.bindLiterals then d.bindNext ⟨none, l.value, l.type⟩
    else do
      refuse l.fault?.toList
      put (d.constantText (d.constant l.value l.type))
  | .parameter p => d.bindNext ⟨some p.name, p.value, p.type⟩
  | .unary .not operand _ => do
    put "NOT "
    enclosedIf operand.enclosedUnderNot (operand.draft d o)
  | .unary .negate operand _ => do
    put "-"
    enclosedIf operand.enclosedUnderMinus (operand.draft d o)
  | .unary .isNull operand _ => do
    enclosedIf operand.enclosedInTest (operand.draft d o)
    put " IS NULL"
  | .unary .isNotNull operand _ => do
    enclosedIf operand.enclosedInTest (operand.draft d o)
    put " IS NOT NULL"
  | .unary (.cast target) operand _ => do
    put "CAST("
    operand.draft d o
    put " AS "
    put (d.typeName target)
    put ")"
  | .binary left op right _ =>
    if op == .concat && d.concatOperator.isNone then do
      put "CONCAT("
      left.draft d o
      put ", "
      right.draft d o
      put ")"
    else do
      enclosedIf (left.enclosedOnLeft op) (left.draft d o)
      put " "
      put (d.spelling op)
      put " "
      enclosedIf (right.enclosedOnRight op) (right.draft d o)
  | .function ⟨name, schema, isBuiltIn, isNiladic, _, propagatesNull, arguments, _⟩ => do
    refuse (callFaults name schema isBuiltIn isNiladic arguments.length propagatesNull.length)
    d.putFunction schema isBuiltIn name
    if isNiladic then pure () else enclosed (listed (Expr.draftEach d o arguments))
  | .subquery select => enclosed (select.draft d o)
  | .exists subquery negated => do
    put (if negated then "NOT EXISTS " else "EXISTS ")
    enclosed (subquery.draft d o)
  | .inList item values negated => do
    enclosedIf item.enclosedInTest (item.draft d o)
    put (if negated then " NOT IN " else " IN ")
    refuse (if values.isEmpty then [.emptyValueList] else [])
    enclosed (listed (Expr.draftEach d o values))
  | .inSelect item values negated => do
    enclosedIf item.enclosedInTest (item.draft d o)
    put (if negated then " NOT IN " else " IN ")
    enclosed (values.draft d o)
  | .like item pattern escape negated => do
    enclosedIf item.enclosedInTest (item.draft d o)
    put (if negated then " NOT LIKE " else " LIKE ")
    enclosedIf pattern.enclosedInTest (pattern.draft d o)
    optionalClause " ESCAPE " (match escape with
      | some e => some (e.draft d o)
      | none => none)
  | .case operand whens otherwise _ => do
    refuse (if whens.isEmpty then [.emptyCase] else [])
    put "CASE"
    optionalClause " " (match operand with
      | some e => some (e.draft d o)
      | none => none)
    inTurn (Expr.draftWhens d o whens)
    optionalClause " ELSE " (match otherwise with
      | some e => some (e.draft d o)
      | none => none)
    put " END"
  | .fragment text => put text

def Expr.draftEach (d : Dialect) (o : Options) : List Expr → List Drafting
  | [] => []
  | e :: es => e.draft d o :: Expr.draftEach d o es

def Expr.draftWhens (d : Dialect) (o : Options) : List (Expr × Expr) → List Drafting
  | [] => []
  | (condition, result) :: whens =>
    (do
      put " WHEN "
      condition.draft d o
      put " THEN "
      result.draft d o) :: Expr.draftWhens d o whens

def Projection.draftEach (d : Dialect) (o : Options) : List Projection → List Drafting
  | [] => []
  | ⟨expr, aliasName⟩ :: ps =>
    (do
      expr.draft d o
      d.putProjectionAlias expr aliasName) :: Projection.draftEach d o ps

def SortTerm.draftEach (d : Dialect) (o : Options) : List SortTerm → List Drafting
  | [] => []
  | ⟨expr, ascending⟩ :: ts =>
    (do
      expr.draft d o
      put (if ascending then "" else " DESC")) :: SortTerm.draftEach d o ts

def Select.draft (d : Dialect) (o : Options) : Select → Drafting
  | ⟨distinct, projections, sources, joins, predicate, groupBy, having, orderings, limit, offset⟩ =>
    let limitDraft := match limit with
      | some e => some (e.draft d o)
      | none => none
    let offsetDraft := match offset with
      | some e => some (e.draft d o)
      | none => none
    do
      refuse (scopeFaults (sources ++ joins.map Join.source))
      put "SELECT "
      put (if distinct then "DISTINCT " else "")
      refuse (d.leadingFaults limit offset)
      d.putLeading limitDraft offsetDraft
      putProjections (Projection.draftEach d o projections)
      d.putSources (Source.draftEach d o sources) (!joins.isEmpty)
      inTurn (Join.draftEach d o joins)
      optionalClause " WHERE " (match predicate with
        | some e => some (e.draft d o)
        | none => none)
      listClause " GROUP BY " (Expr.draftEach d o groupBy)
      optionalClause " HAVING " (match having with
        | some e => some (e.draft d o)
        | none => none)
      d.putOrderings (SortTerm.draftEach d o orderings) offset.isSome
      refuse (d.trailingFaults limit offset)
      d.putTrailing limitDraft offsetDraft

def Source.draft (d : Dialect) (o : Options) : Source → Drafting
  | .table name schema aliasName => do
    d.putQualified (givenName schema) (d.putName name)
    match givenName aliasName with
    | some aliasName => d.putAlias aliasName
    | none => pure ()
  | .derived select aliasName => do
    refuse (aliasFaults .derivedTable aliasName)
    enclosed (select.draft d o)
    d.putAlias aliasName
  | .function ⟨name, schema, isBuiltIn, arguments, aliasName⟩ => do
    refuse (aliasFaults .tableFunction aliasName)
    refuse (if isBuiltIn && (givenName schema).isSome then [.qualifiedBuiltIn true name] else [])
    d.putFunction schema isBuiltIn name
    enclosed (listed (Expr.draftEach d o arguments))
    d.putAlias aliasName
  | .set ⟨operator, distinct, left, right, aliasName⟩ => do
    refuse (aliasFaults .setOperation aliasName)
    refuse (if d.supports operator distinct then [] else [.setOperation operator distinct d.name])
    enclosed do
      d.putOperand left.isPaged (left.draft d o)
      put " "
      put (d.setWord operator)
      put (if distinct then " " else " ALL ")
      d.putOperand right.isPaged (right.draft d o)
    d.putAlias aliasName

def Source.draftEach (d : Dialect) (o : Options) : List Source → List Drafting
  | [] => []
  | s :: ss => s.draft d o :: Source.draftEach d o ss

def Join.draftEach (d : Dialect) (o : Options) : List Join → List Drafting
  | [] => []
  | ⟨kind, source, predicate⟩ :: js =>
    (do
      refuse (joinFaults d kind predicate.isSome)
      put (" " ++ " ".intercalate (joinWords kind) ++ " ")
      source.draft d o
      optionalClause " ON " (match predicate with
        | some e => some (e.draft d o)
        | none => none)) :: Join.draftEach d o js

end

/-! ### Parts member by member -/

section

variable (d : Dialect) (o : Options)

@[simp] theorem Expr.draftEach_eq (es : List Expr) :
    Expr.draftEach d o es = es.map (Expr.draft d o) := by
  induction es with
  | nil => rfl
  | cons e es ih => simp only [Expr.draftEach, ih, List.map_cons]

/-- A case of a `CASE` expression. -/
def Expr.armDraft (w : Expr × Expr) : Drafting := do
  put " WHEN "
  w.1.draft d o
  put " THEN "
  w.2.draft d o

@[simp] theorem Expr.draftWhens_eq (ws : List (Expr × Expr)) :
    Expr.draftWhens d o ws = ws.map (Expr.armDraft d o) := by
  induction ws with
  | nil => rfl
  | cons w ws ih =>
    rw [Expr.draftWhens, ih]
    rfl

def Projection.draft (p : Projection) : Drafting := do
  p.expr.draft d o
  d.putProjectionAlias p.expr p.aliasName

@[simp] theorem Projection.draftEach_eq (ps : List Projection) :
    Projection.draftEach d o ps = ps.map (Projection.draft d o) := by
  induction ps with
  | nil => rfl
  | cons p ps ih =>
    obtain ⟨expr, aliasName⟩ := p
    rw [Projection.draftEach, ih]
    rfl

def SortTerm.draft (t : SortTerm) : Drafting := do
  t.expr.draft d o
  put (if t.ascending then "" else " DESC")

@[simp] theorem SortTerm.draftEach_eq (ts : List SortTerm) :
    SortTerm.draftEach d o ts = ts.map (SortTerm.draft d o) := by
  induction ts with
  | nil => rfl
  | cons t ts ih =>
    obtain ⟨expr, ascending⟩ := t
    rw [SortTerm.draftEach, ih]
    rfl

@[simp] theorem Source.draftEach_eq (ss : List Source) :
    Source.draftEach d o ss = ss.map (Source.draft d o) := by
  induction ss with
  | nil => rfl
  | cons s ss ih => simp only [Source.draftEach, ih, List.map_cons]

def Join.draft (j : Join) : Drafting := do
  refuse (joinFaults d j.kind j.predicate.isSome)
  put (" " ++ " ".intercalate (joinWords j.kind) ++ " ")
  j.source.draft d o
  optionalClause " ON " (j.predicate.map (Expr.draft d o))

@[simp] theorem Join.draftEach_eq (js : List Join) :
    Join.draftEach d o js = js.map (Join.draft d o) := by
  induction js with
  | nil => rfl
  | cons j js ih =>
    obtain ⟨kind, source, predicate⟩ := j
    cases predicate <;> (rw [Join.draftEach, ih]; rfl)

theorem Expr.like_draft (item pattern : Expr) (escape : Option Expr) (negated : Bool) :
    (Expr.like item pattern escape negated).draft d o = (do
      enclosedIf item.enclosedInTest (item.draft d o)
      put (if negated then " NOT LIKE " else " LIKE ")
      enclosedIf pattern.enclosedInTest (pattern.draft d o)
      optionalClause " ESCAPE " (escape.map (Expr.draft d o))) := by
  cases escape <;> rfl

theorem Expr.case_draft (operand : Option Expr) (whens : List (Expr × Expr))
    (otherwise : Option Expr) (type : SqlType) :
    (Expr.case operand whens otherwise type).draft d o = (do
      refuse (if whens.isEmpty then [.emptyCase] else [])
      put "CASE"
      optionalClause " " (operand.map (Expr.draft d o))
      inTurn (whens.map (Expr.armDraft d o))
      optionalClause " ELSE " (otherwise.map (Expr.draft d o))
      put " END") := by
  rw [← Expr.draftWhens_eq]
  cases operand <;> cases otherwise <;> rfl

theorem FunctionCall.draft_eq (call : FunctionCall) :
    (Expr.function call).draft d o = (do
      refuse (callFaults call.name call.schema call.isBuiltIn call.isNiladic call.arguments.length
        call.propagatesNull.length)
      d.putFunction call.schema call.isBuiltIn call.name
      if call.isNiladic then pure ()
      else enclosed (listed (call.arguments.map (Expr.draft d o)))) := by
  cases call
  simp only [Expr.draft, Expr.draftEach_eq]

theorem TableFunction.draft_eq (call : TableFunction) :
    (Source.function call).draft d o = (do
      refuse (aliasFaults .tableFunction call.aliasName)
      refuse (if call.isBuiltIn && (givenName call.schema).isSome then
        [Fault.qualifiedBuiltIn true call.name] else [])
      d.putFunction call.schema call.isBuiltIn call.name
      enclosed (listed (call.arguments.map (Expr.draft d o)))
      d.putAlias call.aliasName) := by
  cases call
  simp only [Source.draft, Expr.draftEach_eq]

theorem Select.draft_eq (q : Select) :
    q.draft d o = (do
      refuse (scopeFaults q.allSources)
      put "SELECT "
      put (if q.distinct then "DISTINCT " else "")
      refuse (d.leadingFaults q.limit q.offset)
      d.putLeading (q.limit.map (Expr.draft d o)) (q.offset.map (Expr.draft d o))
      putProjections (q.projections.map (Projection.draft d o))
      d.putSources (q.sources.map (Source.draft d o)) (!q.joins.isEmpty)
      inTurn (q.joins.map (Join.draft d o))
      optionalClause " WHERE " (q.predicate.map (Expr.draft d o))
      listClause " GROUP BY " (q.groupBy.map (Expr.draft d o))
      optionalClause " HAVING " (q.having.map (Expr.draft d o))
      d.putOrderings (q.orderings.map (SortTerm.draft d o)) q.offset.isSome
      refuse (d.trailingFaults q.limit q.offset)
      d.putTrailing (q.limit.map (Expr.draft d o)) (q.offset.map (Expr.draft d o))) := by
  obtain ⟨distinct, projections, sources, joins, predicate, groupBy, having, orderings, limit,
    offset⟩ := q
  simp only [← Projection.draftEach_eq, ← Source.draftEach_eq, ← Join.draftEach_eq,
    ← Expr.draftEach_eq, ← SortTerm.draftEach_eq]
  cases predicate <;> cases having <;> cases limit <;> cases offset <;> rfl

end

end SelectCompiler
