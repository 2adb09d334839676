import SelectCompiler.Proofs.Tree.Parts

/-!
The leaves of a tree in the order of its text: the names, constants, parameters and raw texts that
it gives. The order is the same for every dialect but for the row limit and the offset of a block.
-/

namespace SelectCompiler

inductive Leaf where
  | column (c : Column)
  | literal (l : Literal)
  | parameter (p : Parameter)
  | target (type : SqlType)
  /-- The name of a function, yielding rows or a scalar. -/
  | function (schema : Option String) (name : String) (isBuiltIn : Bool)
  | table (schema : Option String) (name : String)
  /-- The alias of a projection or of a source. -/
  | aliasName (name : String)
  | fragment (text : String)
deriving DecidableEq

/-- Where the leaves of a limit and of an offset stand: before the projections or at the end. -/
structure PagingOrder where
  front : Option (List Leaf) → Option (List Leaf) → List Leaf
  back : Option (List Leaf) → Option (List Leaf) → List Leaf

/-- The order of the fields of a block. -/
def PagingOrder.ofFields : PagingOrder where
  front _ _ := []
  back limit offset := limit.getD [] ++ offset.getD []

/-- The order in which a dialect writes a block. -/
def Dialect.pagingOrder (d : Dialect) : PagingOrder := ⟨d.leadingParts, d.trailingParts⟩

def UnaryOp.leaves : UnaryOp → List Leaf
  | .cast target => [.target target]
  | _ => []

def Expr.isColumnNamed (name : String) : Expr → Bool
  | .column c => c.name == name
  | _ => false

/-- The alias that a projection shows; a column needs none to keep its own name. -/
def shownAlias (e : Expr) (aliasName : String) : Option String :=
  if aliasName == "" || e.isColumnNamed aliasName then none else some aliasName

mutual

def Expr.leaves (order : PagingOrder) : Expr → List Leaf
  | .column c => [.column c]
  | .literal l => [.literal l]
  | .parameter p => [.parameter p]
  | .unary op operand _ => operand.leaves order ++ op.leaves
  | .binary left _ right _ => left.leaves order ++ right.leaves order
  | .function ⟨name, schema, isBuiltIn, _, _, _, arguments, _⟩ =>
    .function schema name isBuiltIn :: Expr.leavesEach order arguments
  | .subquery select => select.leaves order
  | .exists subquery _ => subquery.leaves order
  | .inList item values _ => item.leaves order ++ Expr.leavesEach order values
  | .inSelect item values _ => item.leaves order ++ values.leaves order
  | .like item pattern escape _ =>
    item.leaves order ++ pattern.leaves order ++ Expr.leavesOption order escape
  | .case operand whens otherwise _ =>
    Expr.leavesOption order operand ++ Expr.leavesWhens order whens ++
      Expr.leavesOption order otherwise
  | .fragment text => [.fragment text]

def Expr.leavesOption (order : PagingOrder) : Option Expr → List Leaf
  | some e => e.leaves order
  | none => []

def Expr.leavesEach (order : PagingOrder) : List Expr → List Leaf
  | [] => []
  | e :: es => e.leaves order ++ Expr.leavesEach order es

def Expr.leavesWhens (order : PagingOrder) : List (Expr × Expr) → List Leaf
  | [] => []
  | (condition, result) :: whens =>
    condition.leaves order ++ result.leaves order ++ Expr.leavesWhens order whens

def Projection.leavesEach (order : PagingOrder) : List Projection → List Leaf
  | [] => []
  | ⟨expr, aliasName⟩ :: ps =>
    expr.leaves order ++ (shownAlias expr aliasName).toList.map .aliasName ++
      Projection.leavesEach order ps

def SortTerm.leavesEach (order : PagingOrder) : List SortTerm → List Leaf
  | [] => []
  | ⟨expr, _⟩ :: ts => expr.leaves order ++ SortTerm.leavesEach order ts

def Select.leaves (order : PagingOrder) : Select → List Leaf
  | ⟨_, projections, sources, joins, predicate, groupBy, having, orderings, limit, offset⟩ =>
    let limitLeaves := match limit with
      | some e => some (e.leaves order)
      | none => none
    let offsetLeaves := match offset with
      | some e => some (e.leaves order)
      | none => none
    order.front limitLeaves offsetLeaves ++ Projection.leavesEach order projections ++
    Source.leavesEach order sources ++ Join.leavesEach order joins ++
    Expr.leavesOption order predicate ++ Expr.leavesEach order groupBy ++
    Expr.leavesOption order having ++ SortTerm.leavesEach order orderings ++
    order.back limitLeaves offsetLeaves

def Source.leaves (order : PagingOrder) : Source → List Leaf
  | .table name schema aliasName =>
    .table schema name :: (givenName aliasName).toList.map .aliasName
  | .derived select aliasName => select.leaves order ++ [.aliasName aliasName]
  | .function ⟨name, schema, isBuiltIn, arguments, aliasName⟩ =>
    .function schema name isBuiltIn :: Expr.leavesEach order arguments ++ [.aliasName aliasName]
  | .set ⟨_, _, left, right, aliasName⟩ =>
    left.leaves order ++ right.leaves order ++ [.aliasName aliasName]

def Source.leavesEach (order : PagingOrder) : List Source → List Leaf
  | [] => []
  | s :: ss => s.leaves order ++ Source.leavesEach order ss

def Join.leavesEach (order : PagingOrder) : List Join → List Leaf
  | [] => []
  | ⟨_, source, predicate⟩ :: js =>
    source.leaves order ++ Expr.leavesOption order predicate ++ Join.leavesEach order js

end

/-! ### Leaves of the parts -/

variable (order : PagingOrder)

@[simp] theorem Expr.leavesOption_eq (e? : Option Expr) :
    Expr.leavesOption order e? = e?.toList.flatMap (Expr.leaves order) := by
  cases e? <;> simp [Expr.leavesOption]

@[simp] theorem Expr.leavesEach_eq (es : List Expr) :
    Expr.leavesEach order es = es.flatMap (Expr.leaves order) := by
  induction es with
  | nil => rfl
  | cons e es ih => rw [Expr.leavesEach, ih, List.flatMap_cons]

@[simp] theorem Expr.leavesWhens_eq (ws : List (Expr × Expr)) :
    Expr.leavesWhens order ws = ws.flatMap fun w => w.1.leaves order ++ w.2.leaves order := by
  induction ws with
  | nil => rfl
  | cons w ws ih => rw [Expr.leavesWhens, ih, List.flatMap_cons]

def Projection.leaves (p : Projection) : List Leaf :=
  p.expr.leaves order ++ (shownAlias p.expr p.aliasName).toList.map .aliasName

@[simp] theorem Projection.leavesEach_eq (ps : List Projection) :
    Projection.leavesEach order ps = ps.flatMap (Projection.leaves order) := by
  induction ps with
  | nil => rfl
  | cons p ps ih =>
    obtain ⟨expr, aliasName⟩ := p
    rw [Projection.leavesEach, ih]
    rfl

@[simp] theorem SortTerm.leavesEach_eq (ts : List SortTerm) :
    SortTerm.leavesEach order ts = ts.flatMap (·.expr.leaves order) := by
  induction ts with
  | nil => rfl
  | cons t ts ih =>
    obtain ⟨expr, ascending⟩ := t
    rw [SortTerm.leavesEach, ih]
    rfl

@[simp] theorem Source.leavesEach_eq (ss : List Source) :
    Source.leavesEach order ss = ss.flatMap (Source.leaves order) := by
  induction ss with
  | nil => rfl
  | cons s ss ih => rw [Source.leavesEach, ih, List.flatMap_cons]

def Join.leaves (j : Join) : List Leaf :=
  j.source.leaves order ++ j.predicate.toList.flatMap (Expr.leaves order)

@[simp] theorem Join.leavesEach_eq (js : List Join) :
    Join.leavesEach order js = js.flatMap (Join.leaves order) := by
  induction js with
  | nil => rfl
  | cons j js ih =>
    obtain ⟨kind, source, predicate⟩ := j
    rw [Join.leavesEach, ih, Expr.leavesOption_eq]
    rfl

theorem FunctionCall.leaves_eq (call : FunctionCall) :
    (Expr.function call).leaves order =
      .function call.schema call.name call.isBuiltIn ::
        call.arguments.flatMap (Expr.leaves order) := by
  cases call
  rw [Expr.leaves, Expr.leavesEach_eq]

theorem TableFunction.leaves_eq (call : TableFunction) :
    (Source.function call).leaves order =
      .function call.schema call.name call.isBuiltIn ::
        call.arguments.flatMap (Expr.leaves order) ++ [Leaf.aliasName call.aliasName] := by
  cases call
  rw [Source.leaves, Expr.leavesEach_eq]

theorem SetOperation.leaves_eq (operation : SetOperation) :
    (Source.set operation).leaves order =
      operation.left.leaves order ++ operation.right.leaves order ++
        [Leaf.aliasName operation.aliasName] := by
  cases operation
  rw [Source.leaves]

/-- The leaves of a block, those of its limit and offset aside. -/
def Select.bodyLeaves (q : Select) : List Leaf :=
  q.projections.flatMap (Projection.leaves order) ++ q.sources.flatMap (Source.leaves order) ++
    q.joins.flatMap (Join.leaves order) ++ q.predicate.toList.flatMap (Expr.leaves order) ++
    q.groupBy.flatMap (Expr.leaves order) ++ q.having.toList.flatMap (Expr.leaves order) ++
    q.orderings.flatMap (·.expr.leaves order)

theorem Select.leaves_eq (q : Select) :
    q.leaves order =
      order.front (q.limit.map (Expr.leaves order)) (q.offset.map (Expr.leaves order)) ++
      q.bodyLeaves order ++
      order.back (q.limit.map (Expr.leaves order)) (q.offset.map (Expr.leaves order)) := by
  obtain ⟨distinct, projections, sources, joins, predicate, groupBy, having, orderings, limit,
    offset⟩ := q
  simp only [Select.bodyLeaves, ← Expr.leavesOption_eq]
  simp only [← Projection.leavesEach_eq, ← Source.leavesEach_eq, ← Join.leavesEach_eq,
    ← Expr.leavesEach_eq, ← SortTerm.leavesEach_eq, ← List.append_assoc]
  cases limit <;> cases offset <;> rfl

end SelectCompiler
