import SelectCompiler.Proofs.Tree.Induction
import SelectCompiler.Proofs.Tree.Parts

/-!
Trees with qualified functions: every function that a schema is meant for has it written into the
tree, at every depth, and nothing else is changed.
-/

namespace SelectCompiler

/-- The schema of a function once unqualified functions that are not built in have this one. -/
def qualifiedSchema (schema : String) (isBuiltIn : Bool) (given : Option String) : Option String :=
  if isBuiltIn || (givenName given).isSome then given else some schema

mutual

def Expr.qualify (schema : String) : Expr → Expr
  | .column c => .column c
  | .literal l => .literal l
  | .parameter p => .parameter p
  | .unary op operand type => .unary op (operand.qualify schema) type
  | .binary left op right type => .binary (left.qualify schema) op (right.qualify schema) type
  | .function ⟨name, given, isBuiltIn, isNiladic, isNullable, propagatesNull, arguments, type⟩ =>
    .function ⟨name, qualifiedSchema schema isBuiltIn given, isBuiltIn, isNiladic, isNullable,
      propagatesNull, Expr.qualifyEach schema arguments, type⟩
  | .subquery select => .subquery (select.qualify schema)
  | .exists subquery negated => .exists (subquery.qualify schema) negated
  | .inList item values negated =>
    .inList (item.qualify schema) (Expr.qualifyEach schema values) negated
  | .inSelect item values negated =>
    .inSelect (item.qualify schema) (values.qualify schema) negated
  | .like item pattern escape negated =>
    .like (item.qualify schema) (pattern.qualify schema) (Expr.qualifyOption schema escape) negated
  | .case operand whens otherwise type =>
    .case (Expr.qualifyOption schema operand) (Expr.qualifyWhens schema whens)
      (Expr.qualifyOption schema otherwise) type
  | .fragment text => .fragment text

def Expr.qualifyOption (schema : String) : Option Expr → Option Expr
  | some e => some (e.qualify schema)
  | none => none

def Expr.qualifyEach (schema : String) : List Expr → List Expr
  | [] => []
  | e :: es => e.qualify schema :: Expr.qualifyEach schema es

def Expr.qualifyWhens (schema : String) : List (Expr × Expr) → List (Expr × Expr)
  | [] => []
  | (condition, result) :: whens =>
    (condition.qualify schema, result.qualify schema) :: Expr.qualifyWhens schema whens

def Projection.qualifyEach (schema : String) : List Projection → List Projection
  | [] => []
  | ⟨expr, aliasName⟩ :: ps =>
    ⟨expr.qualify schema, aliasName⟩ :: Projection.qualifyEach schema ps

def SortTerm.qualifyEach (schema : String) : List SortTerm → List SortTerm
  | [] => []
  | ⟨expr, ascending⟩ :: ts => ⟨expr.qualify schema, ascending⟩ :: SortTerm.qualifyEach schema ts

def Select.qualify (schema : String) : Select → Select
  | ⟨distinct, projections, sources, joins, predicate, groupBy, having, orderings, limit, offset⟩ =>
    ⟨distinct, Projection.qualifyEach schema projections, Source.qualifyEach schema sources,
      Join.qualifyEach schema joins, Expr.qualifyOption schema predicate,
      Expr.qualifyEach schema groupBy, Expr.qualifyOption schema having,
      SortTerm.qualifyEach schema orderings, Expr.qualifyOption schema limit,
      Expr.qualifyOption schema offset⟩

def Source.qualify (schema : String) : Source → Source
  | .table name given aliasName => .table name given aliasName
  | .derived select aliasName => .derived (select.qualify schema) aliasName
  | .function ⟨name, given, isBuiltIn, arguments, aliasName⟩ =>
    .function ⟨name, qualifiedSchema schema isBuiltIn given, isBuiltIn,
      Expr.qualifyEach schema arguments, aliasName⟩
  | .set ⟨operator, distinct, left, right, aliasName⟩ =>
    .set ⟨operator, distinct, left.qualify schema, right.qualify schema, aliasName⟩

def Source.qualifyEach (schema : String) : List Source → List Source
  | [] => []
  | s :: ss => s.qualify schema :: Source.qualifyEach schema ss

def Join.qualifyEach (schema : String) : List Join → List Join
  | [] => []
  | ⟨kind, source, predicate⟩ :: js =>
    ⟨kind, source.qualify schema, Expr.qualifyOption schema predicate⟩ ::
      Join.qualifyEach schema js

end

/-! ### Qualified parts -/

variable (schema : String)

def Projection.qualify (p : Projection) : Projection := { p with expr := p.expr.qualify schema }

def SortTerm.qualify (t : SortTerm) : SortTerm := { t with expr := t.expr.qualify schema }

def Join.qualify (j : Join) : Join :=
  { j with
    source := j.source.qualify schema
    predicate := j.predicate.map (Expr.qualify schema) }

@[simp] theorem Expr.qualifyOption_eq (e? : Option Expr) :
    Expr.qualifyOption schema e? = e?.map (Expr.qualify schema) := by
  cases e? <;> rfl

@[simp] theorem Expr.qualifyEach_eq (es : List Expr) :
    Expr.qualifyEach schema es = es.map (Expr.qualify schema) := by
  induction es with
  | nil => rfl
  | cons e es ih => rw [Expr.qualifyEach, ih, List.map_cons]

@[simp] theorem Expr.qualifyWhens_eq (ws : List (Expr × Expr)) :
    Expr.qualifyWhens schema ws = ws.map fun w => (w.1.qualify schema, w.2.qualify schema) := by
  induction ws with
  | nil => rfl
  | cons w ws ih => rw [Expr.qualifyWhens, ih, List.map_cons]

@[simp] theorem Projection.qualifyEach_eq (ps : List Projection) :
    Projection.qualifyEach schema ps = ps.map (Projection.qualify schema) := by
  induction ps with
  | nil => rfl
  | cons p ps ih =>
    obtain ⟨expr, aliasName⟩ := p
    rw [Projection.qualifyEach, ih]
    rfl

@[simp] theorem SortTerm.qualifyEach_eq (ts : List SortTerm) :
    SortTerm.qualifyEach schema ts = ts.map (SortTerm.qualify schema) := by
  induction ts with
  | nil => rfl
  | cons t ts ih =>
    obtain ⟨expr, ascending⟩ := t
    rw [SortTerm.qualifyEach, ih]
    rfl

@[simp] theorem Source.qualifyEach_eq (ss : List Source) :
    Source.qualifyEach schema ss = ss.map (Source.qualify schema) := by
  induction ss with
  | nil => rfl
  | cons s ss ih => rw [Source.qualifyEach, ih, List.map_cons]

@[simp] theorem Join.qualifyEach_eq (js : List Join) :
    Join.qualifyEach schema js = js.map (Join.qualify schema) := by
  induction js with
  | nil => rfl
  | cons j js ih =>
    obtain ⟨kind, source, predicate⟩ := j
    rw [Join.qualifyEach, ih, Expr.qualifyOption_eq]
    rfl

theorem FunctionCall.qualify_eq (call : FunctionCall) :
    (Expr.function call).qualify schema =
      .function { call with
        schema := qualifiedSchema schema call.isBuiltIn call.schema
        arguments := call.arguments.map (Expr.qualify schema) } := by
  cases call
  rw [Expr.qualify, Expr.qualifyEach_eq]

theorem TableFunction.qualify_eq (call : TableFunction) :
    (Source.function call).qualify schema =
      .function { call with
        schema := qualifiedSchema schema call.isBuiltIn call.schema
        arguments := call.arguments.map (Expr.qualify schema) } := by
  cases call
  rw [Source.qualify, Expr.qualifyEach_eq]

theorem SetOperation.qualify_eq (operation : SetOperation) :
    (Source.set operation).qualify schema =
      .set { operation with
        left := operation.left.qualify schema
        right := operation.right.qualify schema } := by
  cases operation
  rw [Source.qualify]

theorem Select.qualify_eq (q : Select) :
    q.qualify schema =
      { distinct := q.distinct
        projections := q.projections.map (Projection.qualify schema)
        sources := q.sources.map (Source.qualify schema)
        joins := q.joins.map (Join.qualify schema)
        predicate := q.predicate.map (Expr.qualify schema)
        groupBy := q.groupBy.map (Expr.qualify schema)
        having := q.having.map (Expr.qualify schema)
        orderings := q.orderings.map (SortTerm.qualify schema)
        limit := q.limit.map (Expr.qualify schema)
        offset := q.offset.map (Expr.qualify schema) } := by
  cases q
  simp only [Select.qualify, Projection.qualifyEach_eq, Source.qualifyEach_eq,
    Join.qualifyEach_eq, Expr.qualifyOption_eq, Expr.qualifyEach_eq, SortTerm.qualifyEach_eq]

/-! ### What qualifying keeps -/

section Kept

variable {schema : String}

theorem Expr.rank_qualify (e : Expr) : (e.qualify schema).rank = e.rank := by
  cases e with
  | unary op operand type => cases op <;> rfl
  | function call => rw [call.qualify_eq]; rfl
  | _ => rfl

theorem Expr.isBinary_qualify (op : BinaryOp) (e : Expr) :
    (e.qualify schema).isBinary op = e.isBinary op := by
  cases e with
  | function call => rw [call.qualify_eq]; rfl
  | _ => rfl

theorem Expr.mixesWith_qualify (op : BinaryOp) (e : Expr) :
    (e.qualify schema).mixesWith op = e.mixesWith op := by
  cases e with
  | function call => rw [call.qualify_eq]; rfl
  | _ => rfl

theorem Expr.startsWithMinus_qualify (e : Expr) :
    (e.qualify schema).startsWithMinus = e.startsWithMinus := by
  cases e with
  | unary op operand type => cases op <;> rfl
  | function call => rw [call.qualify_eq]; rfl
  | _ => rfl

@[simp] theorem Expr.enclosedUnderMinus_qualify (e : Expr) :
    (e.qualify schema).enclosedUnderMinus = e.enclosedUnderMinus := by
  rw [enclosedUnderMinus, enclosedUnderMinus, rank_qualify, startsWithMinus_qualify]

@[simp] theorem Expr.enclosedOnLeft_qualify (op : BinaryOp) (e : Expr) :
    (e.qualify schema).enclosedOnLeft op = e.enclosedOnLeft op := by
  simp only [enclosedOnLeft, rank_qualify, mixesWith_qualify]

@[simp] theorem Expr.enclosedOnRight_qualify (op : BinaryOp) (e : Expr) :
    (e.qualify schema).enclosedOnRight op = e.enclosedOnRight op := by
  simp only [enclosedOnRight, rank_qualify, isBinary_qualify, mixesWith_qualify]

@[simp] theorem Expr.enclosedUnderNot_qualify (e : Expr) :
    (e.qualify schema).enclosedUnderNot = e.enclosedUnderNot := by
  rw [enclosedUnderNot, enclosedUnderNot, rank_qualify]

@[simp] theorem Expr.enclosedInTest_qualify (e : Expr) :
    (e.qualify schema).enclosedInTest = e.enclosedInTest := by
  rw [enclosedInTest, enclosedInTest, rank_qualify]

@[simp] theorem projectionAlias_qualify (e : Expr) (aliasName : String) :
    projectionAlias (e.qualify schema) aliasName = projectionAlias e aliasName := by
  cases e with
  | function call => rw [call.qualify_eq]; rfl
  | _ => rfl

@[simp] theorem Select.isPaged_qualify (q : Select) : (q.qualify schema).isPaged = q.isPaged := by
  rw [q.qualify_eq]
  simp [Select.isPaged]

@[simp] theorem Source.alias?_qualify (s : Source) : (s.qualify schema).alias? = s.alias? := by
  cases s with
  | function call => rw [call.qualify_eq]; rfl
  | set operation => rw [operation.qualify_eq]; rfl
  | _ => rfl

theorem Select.scopeFaults_qualify (q : Select) :
    scopeFaults (q.qualify schema).allSources = scopeFaults q.allSources := by
  have aliases : (q.qualify schema).allSources.filterMap Source.alias? =
      q.allSources.filterMap Source.alias? := by
    have source : Source.alias? ∘ Source.qualify schema = Source.alias? :=
      funext Source.alias?_qualify
    have joined : Source.alias? ∘ Join.source ∘ Join.qualify schema =
        Source.alias? ∘ Join.source := funext fun j => j.source.alias?_qualify
    rw [q.qualify_eq]
    simp only [allSources, List.filterMap_append, List.map_map, List.filterMap_map, source, joined]
  rw [scopeFaults, scopeFaults, aliases]

theorem rowCountFaults_qualify (part : PagingPart) (e : Expr) :
    rowCountFaults part (e.qualify schema) = rowCountFaults part e := by
  cases e with
  | function call => rw [call.qualify_eq]; rfl
  | _ => rfl

theorem Dialect.leadingFaults_qualify (d : Dialect) (limit offset : Option Expr) :
    d.leadingFaults (limit.map (Expr.qualify schema)) (offset.map (Expr.qualify schema)) =
      d.leadingFaults limit offset := by
  unfold leadingFaults pagingPlan
  cases limit <;> cases offset <;> cases d.limitPlace <;> simp [rowCountFaults_qualify]

theorem Dialect.trailingFaults_qualify (d : Dialect) (limit offset : Option Expr) :
    d.trailingFaults (limit.map (Expr.qualify schema)) (offset.map (Expr.qualify schema)) =
      d.trailingFaults limit offset := by
  unfold trailingFaults pagingPlan
  cases limit <;> cases offset <;> cases d.limitPlace <;> simp [rowCountFaults_qualify]

end Kept

end SelectCompiler
