import SelectCompiler.Sql.Faults

/-!
The written form and the faults of a node out of those of its parts, with the lists of parts taken
member by member.
-/

namespace SelectCompiler

theorem flatMap_toList {α β : Type} (x? : Option α) (f : α → List β) :
    x?.toList.flatMap f = (x?.map f).getD [] := by
  cases x? <;> simp

variable (d : Dialect) (o : Options)

/-! ### Written parts -/

namespace Dialect

def distinctTokens (distinct : Bool) : List Token :=
  if distinct then [.word "DISTINCT", .space] else []

/-- A block without projections selects a number. -/
def projectionTokens (projections : List (List Token)) : List Token :=
  if projections.isEmpty then [.constant (.bare "1")] else Token.listed projections

/-- The row limit, where it stands after `SELECT`. -/
def frontTokens (limit offset : Option (List Token)) : List Token :=
  match d.pagingPlan limit offset with
  | .leading limit => d.leadingTokens limit
  | _ => []

/-- The last clause, where there is one. -/
def backTokens (limit offset : Option (List Token)) : List Token :=
  match d.pagingPlan limit offset with
  | .trailing limit offset => d.paging.tokens limit offset
  | _ => []

theorem assemble_eq (c : Clauses) :
    d.assemble c =
      [Token.word "SELECT", .space] ++ distinctTokens c.distinct ++ d.frontTokens c.limit c.offset ++
      projectionTokens c.projections ++ d.sourceTokens c.sources ++ c.joins.flatten ++
      Token.optionalClause ["WHERE"] c.predicate ++ Token.listClause ["GROUP", "BY"] c.groupBy ++
      Token.optionalClause ["HAVING"] c.having ++
      d.orderingTokens c.orderings c.offset.isSome ++ d.backTokens c.limit c.offset := rfl

end Dialect


@[simp] theorem Expr.tokensEach_eq (es : List Expr) :
    Expr.tokensEach d o es = es.map (Expr.tokens d o) := by
  induction es with
  | nil => rfl
  | cons e es ih => simp only [Expr.tokensEach, ih, List.map_cons]

@[simp] theorem Expr.tokensWhens_eq (ws : List (Expr × Expr)) :
    Expr.tokensWhens d o ws = ws.map fun w =>
      Token.clause ["WHEN"] ++ w.1.tokens d o ++ Token.clause ["THEN"] ++ w.2.tokens d o := by
  induction ws with
  | nil => rfl
  | cons w ws ih => simp only [Expr.tokensWhens, ih, List.map_cons]

@[simp] theorem Projection.tokensEach_eq (ps : List Projection) :
    Projection.tokensEach d o ps =
      ps.map fun p => p.expr.tokens d o ++ projectionAlias p.expr p.aliasName := by
  induction ps with
  | nil => rfl
  | cons p ps ih =>
    obtain ⟨expr, aliasName⟩ := p
    rw [Projection.tokensEach, ih]
    rfl

@[simp] theorem SortTerm.tokensEach_eq (ts : List SortTerm) :
    SortTerm.tokensEach d o ts =
      ts.map fun t =>
        t.expr.tokens d o ++ if t.ascending then [] else [Token.space, .word "DESC"] := by
  induction ts with
  | nil => rfl
  | cons t ts ih =>
    obtain ⟨expr, ascending⟩ := t
    rw [SortTerm.tokensEach, ih]
    rfl

@[simp] theorem Source.tokensEach_eq (ss : List Source) :
    Source.tokensEach d o ss = ss.map (Source.tokens d o) := by
  induction ss with
  | nil => rfl
  | cons s ss ih => simp only [Source.tokensEach, ih, List.map_cons]

/-- A join with its keywords in front. -/
def Join.tokens (j : Join) : List Token :=
  Token.clause (joinWords j.kind) ++ j.source.tokens d o ++
    Token.optionalClause ["ON"] (j.predicate.map (Expr.tokens d o))

@[simp] theorem Join.tokensEach_eq (js : List Join) :
    Join.tokensEach d o js = js.map (Join.tokens d o) := by
  induction js with
  | nil => rfl
  | cons j js ih =>
    obtain ⟨kind, source, predicate⟩ := j
    cases predicate <;> (rw [Join.tokensEach, ih]; rfl)

def Token.arm (condition result : List Token) : List Token :=
  clause ["WHEN"] ++ condition ++ clause ["THEN"] ++ result

def Expr.armTokens (w : Expr × Expr) : List Token := Token.arm (w.1.tokens d o) (w.2.tokens d o)

theorem Expr.like_tokens (item pattern : Expr) (escape : Option Expr) (negated : Bool) :
    (Expr.like item pattern escape negated).tokens d o =
      Token.enclosedIf item.enclosedInTest (item.tokens d o) ++ testWords negated "LIKE" ++
        Token.enclosedIf pattern.enclosedInTest (pattern.tokens d o) ++
        Token.optionalClause ["ESCAPE"] (escape.map (Expr.tokens d o)) := by
  cases escape <;> rfl

theorem Expr.case_tokens (operand : Option Expr) (whens : List (Expr × Expr))
    (otherwise : Option Expr) (type : SqlType) :
    (Expr.case operand whens otherwise type).tokens d o =
      .word "CASE" :: (operand.toList.flatMap fun e => .space :: e.tokens d o) ++
        (whens.map (Expr.armTokens d o)).flatten ++
        Token.optionalClause ["ELSE"] (otherwise.map (Expr.tokens d o)) ++
        [Token.space, .word "END"] := by
  have arms := Expr.tokensWhens_eq d o whens
  rw [flatMap_toList]
  cases operand <;> cases otherwise <;> (rw [Expr.tokens, arms]; rfl)

theorem FunctionCall.tokens_eq (call : FunctionCall) :
    (Expr.function call).tokens d o =
      Token.qualified (d.schemaOf call.isBuiltIn call.schema)
        (Dialect.functionToken call.isBuiltIn call.name) ++
      if call.isNiladic then []
      else Token.enclosed (Token.listed (call.arguments.map (Expr.tokens d o))) := by
  cases call
  simp only [Expr.tokens, Expr.tokensEach_eq]

theorem TableFunction.tokens_eq (call : TableFunction) :
    (Source.function call).tokens d o =
      d.aliased call.aliasName (Token.qualified (d.schemaOf call.isBuiltIn call.schema)
        (Dialect.functionToken call.isBuiltIn call.name) ++
        Token.enclosed (Token.listed (call.arguments.map (Expr.tokens d o)))) := by
  cases call
  simp only [Source.tokens, Expr.tokensEach_eq]

theorem SetOperation.tokens_eq (operation : SetOperation) :
    (Source.set operation).tokens d o =
      d.aliased operation.aliasName (Token.enclosed
        (d.operandTokens operation.left.isPaged (operation.left.tokens d o) ++
          Token.clause (d.setWord operation.operator ::
            if operation.distinct then [] else ["ALL"]) ++
          d.operandTokens operation.right.isPaged (operation.right.tokens d o))) := by
  cases operation
  simp only [Source.tokens]

def Select.clauses (q : Select) : Clauses where
  distinct := q.distinct
  projections := q.projections.map fun p => p.expr.tokens d o ++ projectionAlias p.expr p.aliasName
  sources := q.sources.map (Source.tokens d o)
  joins := q.joins.map (Join.tokens d o)
  predicate := q.predicate.map (Expr.tokens d o)
  groupBy := q.groupBy.map (Expr.tokens d o)
  having := q.having.map (Expr.tokens d o)
  orderings := q.orderings.map fun t =>
    t.expr.tokens d o ++ if t.ascending then [] else [.space, .word "DESC"]
  limit := q.limit.map (Expr.tokens d o)
  offset := q.offset.map (Expr.tokens d o)

theorem Select.tokens_eq (q : Select) : q.tokens d o = d.assemble (q.clauses d o) := by
  obtain ⟨distinct, projections, sources, joins, predicate, groupBy, having, orderings, limit,
    offset⟩ := q
  simp only [Select.clauses, ← Projection.tokensEach_eq, ← Source.tokensEach_eq,
    ← Join.tokensEach_eq, ← Expr.tokensEach_eq, ← SortTerm.tokensEach_eq]
  cases predicate <;> cases having <;> cases limit <;> cases offset <;> rfl

/-! ### Faults of the parts -/

@[simp] theorem Expr.faultsEach_eq (es : List Expr) :
    Expr.faultsEach d o es = es.flatMap (Expr.faults d o) := by
  induction es with
  | nil => rfl
  | cons e es ih => simp only [Expr.faultsEach, ih, List.flatMap_cons]

@[simp] theorem Expr.faultsWhens_eq (ws : List (Expr × Expr)) :
    Expr.faultsWhens d o ws = ws.flatMap fun w => w.1.faults d o ++ w.2.faults d o := by
  induction ws with
  | nil => rfl
  | cons w ws ih => simp only [Expr.faultsWhens, ih, List.flatMap_cons]

@[simp] theorem Projection.faultsEach_eq (ps : List Projection) :
    Projection.faultsEach d o ps = ps.flatMap (·.expr.faults d o) := by
  induction ps with
  | nil => rfl
  | cons p ps ih =>
    obtain ⟨expr, aliasName⟩ := p
    rw [Projection.faultsEach, ih]
    rfl

@[simp] theorem SortTerm.faultsEach_eq (ts : List SortTerm) :
    SortTerm.faultsEach d o ts = ts.flatMap (·.expr.faults d o) := by
  induction ts with
  | nil => rfl
  | cons t ts ih =>
    obtain ⟨expr, ascending⟩ := t
    rw [SortTerm.faultsEach, ih]
    rfl

@[simp] theorem Source.faultsEach_eq (ss : List Source) :
    Source.faultsEach d o ss = ss.flatMap (Source.faults d o) := by
  induction ss with
  | nil => rfl
  | cons s ss ih => simp only [Source.faultsEach, ih, List.flatMap_cons]

def Join.faults (j : Join) : List Fault :=
  joinFaults d j.kind j.predicate.isSome ++ j.source.faults d o ++
    j.predicate.toList.flatMap (Expr.faults d o)

@[simp] theorem Join.faultsEach_eq (js : List Join) :
    Join.faultsEach d o js = js.flatMap (Join.faults d o) := by
  induction js with
  | nil => rfl
  | cons j js ih =>
    obtain ⟨kind, source, predicate⟩ := j
    rw [List.flatMap_cons, Join.faults, flatMap_toList, ← ih]
    cases predicate <;> rfl

theorem Expr.like_faults (item pattern : Expr) (escape : Option Expr) (negated : Bool) :
    (Expr.like item pattern escape negated).faults d o =
      item.faults d o ++ pattern.faults d o ++ escape.toList.flatMap (Expr.faults d o) := by
  rw [flatMap_toList]
  cases escape <;> rfl

theorem Expr.case_faults (operand : Option Expr) (whens : List (Expr × Expr))
    (otherwise : Option Expr) (type : SqlType) :
    (Expr.case operand whens otherwise type).faults d o =
      (if whens.isEmpty then [Fault.emptyCase] else []) ++
        operand.toList.flatMap (Expr.faults d o) ++
        (whens.flatMap fun w => w.1.faults d o ++ w.2.faults d o) ++
        otherwise.toList.flatMap (Expr.faults d o) := by
  rw [← Expr.faultsWhens_eq, flatMap_toList, flatMap_toList]
  cases operand <;> cases otherwise <;> rfl

theorem FunctionCall.faults_eq (call : FunctionCall) :
    (Expr.function call).faults d o =
      callFaults call.name call.schema call.isBuiltIn call.isNiladic call.arguments.length
        call.propagatesNull.length ++ call.arguments.flatMap (Expr.faults d o) := by
  cases call
  simp only [Expr.faults, Expr.faultsEach_eq]

theorem TableFunction.faults_eq (call : TableFunction) :
    (Source.function call).faults d o =
      aliasFaults .tableFunction call.aliasName ++
        (if call.isBuiltIn && (givenName call.schema).isSome then
          [Fault.qualifiedBuiltIn true call.name] else []) ++
        call.arguments.flatMap (Expr.faults d o) := by
  cases call
  simp only [Source.faults, Expr.faultsEach_eq]

theorem SetOperation.faults_eq (operation : SetOperation) :
    (Source.set operation).faults d o =
      aliasFaults .setOperation operation.aliasName ++
        (if d.supports operation.operator operation.distinct then []
          else [Fault.setOperation operation.operator operation.distinct d.name]) ++
        operation.left.faults d o ++ operation.right.faults d o := by
  cases operation
  simp only [Source.faults]

theorem Select.faults_eq (q : Select) :
    q.faults d o =
      scopeFaults q.allSources ++ d.leadingFaults q.limit q.offset ++
      d.leadingParts (q.limit.map (Expr.faults d o)) (q.offset.map (Expr.faults d o)) ++
      q.projections.flatMap (·.expr.faults d o) ++
      (if q.sources.isEmpty && !q.joins.isEmpty then [Fault.joinWithoutSource] else []) ++
      q.sources.flatMap (Source.faults d o) ++
      q.joins.flatMap (Join.faults d o) ++
      q.predicate.toList.flatMap (Expr.faults d o) ++
      q.groupBy.flatMap (Expr.faults d o) ++
      q.having.toList.flatMap (Expr.faults d o) ++
      q.orderings.flatMap (·.expr.faults d o) ++
      d.trailingFaults q.limit q.offset ++
      d.trailingParts (q.limit.map (Expr.faults d o)) (q.offset.map (Expr.faults d o)) := by
  obtain ⟨distinct, projections, sources, joins, predicate, groupBy, having, orderings, limit,
    offset⟩ := q
  simp only [← Projection.faultsEach_eq, ← Source.faultsEach_eq, ← Join.faultsEach_eq,
    ← Expr.faultsEach_eq, ← SortTerm.faultsEach_eq, flatMap_toList]
  cases predicate <;> cases having <;> cases limit <;> cases offset <;> rfl

end SelectCompiler
