import SelectCompiler.Wire.Decode
import SelectCompiler.Proofs.Tree.NodeLeaves
import SelectCompiler.Proofs.Wire.ReadingBack

/-!
Trees in JSON. Main statement: a tree whose floats are finite is read back from its JSON form, also
where members that are null and members of a query block that have their default are left out at
any depth, and so it compiles to the same command or error.
-/

namespace SelectCompiler

open Json (ReadsBack)

/-! ### Leaves -/

theorem Column.readsBack (c : Column) : ReadsBack (fun _ => Column.ofJson?) c.toJson c := by
  refine ⟨nofun, fun n j short deep => ?_⟩
  obtain ⟨k, find, rfl, fields, record, -⟩ := short.ordinaryRecord (by decide) (by simp) deep
  simp only [List.forall_mem_cons, List.map_cons, List.map_nil] at fields record
  obtain ⟨name, table, type, nullable, -⟩ := fields
  have table := table.optionalText (by simp [Select.defaultMembers])
  simp [Column.ofJson?, record, name.required (.str _), table,
    type.required (SqlType.readsBack _), nullable.required (.bool _)]

theorem Literal.readsBack (l : Literal) (finite : l.value.IsFinite) :
    ReadsBack (fun _ => Literal.ofJson?) l.toJson l := by
  refine ⟨nofun, fun n j short deep => ?_⟩
  obtain ⟨k, find, rfl, fields, record, -⟩ := short.ordinaryRecord (by decide) (by simp) deep
  simp only [List.forall_mem_cons, List.map_cons, List.map_nil] at fields record
  obtain ⟨value, type, -⟩ := fields
  simp [Literal.ofJson?, record, value.required (l.value.readsBack finite),
    type.required (SqlType.readsBack _)]

theorem Parameter.readsBack (p : Parameter) (finite : p.value.IsFinite) :
    ReadsBack (fun _ => Parameter.ofJson?) p.toJson p := by
  refine ⟨nofun, fun n j short deep => ?_⟩
  obtain ⟨k, find, rfl, fields, record, -⟩ := short.ordinaryRecord (by decide) (by simp) deep
  simp only [List.forall_mem_cons, List.map_cons, List.map_nil] at fields record
  obtain ⟨name, value, type, -⟩ := fields
  simp [Parameter.ofJson?, record, name.required (.str _),
    value.required (p.value.readsBack finite), type.required (SqlType.readsBack _)]

/-! ### The forms of lists and options -/

def Projection.toJson (p : Projection) : Json :=
  .obj [("expr", p.expr.toJson), ("alias", .str p.aliasName)]

def SortTerm.toJson (t : SortTerm) : Json :=
  .obj [("expr", t.expr.toJson), ("ascending", .bool t.ascending)]

/-- The form of an optional part. -/
def Expr.optionToJson (e? : Option Expr) : Json := (e?.map Expr.toJson).getD .null

def Join.toJson (j : Join) : Json :=
  .obj [("kind", j.kind.toJson), ("source", j.source.toJson),
    ("predicate", Expr.optionToJson j.predicate)]

def Expr.whenToJson (w : Expr × Expr) : Json := .arr [w.1.toJson, w.2.toJson]

theorem Expr.jsonItems_eq (es : List Expr) : Expr.jsonItems es = es.map Expr.toJson := by
  induction es with
  | nil => rfl
  | cons e es ih => rw [Expr.jsonItems, ih, List.map_cons]

theorem Expr.jsonWhens_eq (ws : List (Expr × Expr)) : Expr.jsonWhens ws = ws.map whenToJson := by
  induction ws with
  | nil => rfl
  | cons w ws ih => rw [Expr.jsonWhens, ih, List.map_cons, whenToJson]

theorem Projection.jsonItems_eq (ps : List Projection) : jsonItems ps = ps.map toJson := by
  induction ps with
  | nil => rfl
  | cons p ps ih =>
    obtain ⟨expr, aliasName⟩ := p
    rw [jsonItems, ih, List.map_cons, toJson]

theorem SortTerm.jsonItems_eq (ts : List SortTerm) : jsonItems ts = ts.map toJson := by
  induction ts with
  | nil => rfl
  | cons t ts ih =>
    obtain ⟨expr, ascending⟩ := t
    rw [jsonItems, ih, List.map_cons, toJson]

theorem Source.jsonItems_eq (ss : List Source) : jsonItems ss = ss.map toJson := by
  induction ss with
  | nil => rfl
  | cons s ss ih => rw [jsonItems, ih, List.map_cons]

theorem Join.jsonItems_eq (js : List Join) : jsonItems js = js.map toJson := by
  induction js with
  | nil => rfl
  | cons j js ih =>
    obtain ⟨kind, source, predicate⟩ := j
    cases predicate <;> simp only [jsonItems, ih] <;> rfl

theorem FunctionCall.toJson_eq (call : FunctionCall) :
    call.toJson = .obj [("name", .str call.name), ("schema", optionalText call.schema),
      ("is_built_in", .bool call.isBuiltIn), ("is_niladic", .bool call.isNiladic),
      ("is_nullable", .bool call.isNullable),
      ("arguments_propagate_nullability", .arr (call.propagatesNull.map .bool)),
      ("arguments", .arr (call.arguments.map Expr.toJson)), ("ty", call.type.toJson)] := by
  cases call
  simp only [toJson, Expr.jsonItems_eq]

theorem TableFunction.toJson_eq (call : TableFunction) :
    call.toJson = .obj [("name", .str call.name), ("schema", optionalText call.schema),
      ("is_built_in", .bool call.isBuiltIn),
      ("arguments", .arr (call.arguments.map Expr.toJson)), ("alias", .str call.aliasName)] := by
  cases call
  simp only [toJson, Expr.jsonItems_eq]

theorem Expr.toJson_like (item pattern : Expr) (escape : Option Expr) (negated : Bool) :
    (Expr.like item pattern escape negated).toJson =
      .variant "Like" (.obj [("item", item.toJson), ("pattern", pattern.toJson),
        ("escape", optionToJson escape), ("negated", .bool negated)]) := by
  cases escape <;> rfl

theorem Expr.toJson_case (operand : Option Expr) (whens : List (Expr × Expr))
    (otherwise : Option Expr) (type : SqlType) :
    (Expr.case operand whens otherwise type).toJson =
      .variant "Case" (.obj [("operand", optionToJson operand),
        ("when_clauses", .arr (whens.map whenToJson)), ("else_value", optionToJson otherwise),
        ("ty", type.toJson)]) := by
  rw [← jsonWhens_eq]
  cases operand <;> cases otherwise <;> rfl

theorem Select.toJson_eq (q : Select) :
    q.toJson = .obj [("distinct", .bool q.distinct),
      ("projections", .arr (q.projections.map Projection.toJson)),
      ("from", .arr (q.sources.map Source.toJson)), ("joins", .arr (q.joins.map Join.toJson)),
      ("predicate", Expr.optionToJson q.predicate),
      ("group_by", .arr (q.groupBy.map Expr.toJson)), ("having", Expr.optionToJson q.having),
      ("orderings", .arr (q.orderings.map SortTerm.toJson)),
      ("limit", Expr.optionToJson q.limit), ("offset", Expr.optionToJson q.offset)] := by
  obtain ⟨distinct, projections, sources, joins, predicate, groupBy, having, orderings, limit,
    offset⟩ := q
  rw [← Expr.jsonItems_eq, ← Projection.jsonItems_eq, ← Source.jsonItems_eq, ← Join.jsonItems_eq,
    ← SortTerm.jsonItems_eq]
  cases predicate <;> cases having <;> cases limit <;> cases offset <;> rfl

/-! ### One node -/

/-- An expression is found in its form and in whatever shortens it. -/
def Expr.ReadsBack (listed : Bool) (e : Expr) : Prop :=
  Json.ReadsBack (Expr.read listed) e.toJson e

def Select.ReadsBack (listed : Bool) (q : Select) : Prop :=
  Json.ReadsBack (Select.read listed) q.toJson q

def Source.ReadsBack (listed : Bool) (s : Source) : Prop :=
  Json.ReadsBack (Source.read listed) s.toJson s

def Join.ReadsBack (listed : Bool) (j : Join) : Prop :=
  Json.ReadsBack (Join.read listed) j.toJson j

variable {listed : Bool}

theorem Projection.readsBack {p : Projection} (h : p.expr.ReadsBack listed) :
    Json.ReadsBack (Projection.read listed) p.toJson p := by
  refine ⟨nofun, fun n j short deep => ?_⟩
  obtain ⟨k, find, rfl, fields, record, -⟩ := short.ordinaryRecord (by decide) (by simp) deep
  simp only [List.forall_mem_cons, List.map_cons, List.map_nil] at fields record
  obtain ⟨expr, aliasName, -⟩ := fields
  cases p
  simp [Projection.read, record, expr.required h, aliasName.required (.str _)]

theorem SortTerm.readsBack {t : SortTerm} (h : t.expr.ReadsBack listed) :
    Json.ReadsBack (SortTerm.read listed) t.toJson t := by
  refine ⟨nofun, fun n j short deep => ?_⟩
  obtain ⟨k, find, rfl, fields, record, -⟩ := short.ordinaryRecord (by decide) (by simp) deep
  simp only [List.forall_mem_cons, List.map_cons, List.map_nil] at fields record
  obtain ⟨expr, ascending, -⟩ := fields
  cases t
  simp [SortTerm.read, record, expr.required h, ascending.required (.bool _)]

theorem Join.readsBack {j : Join} (source : j.source.ReadsBack listed)
    (predicate : ∀ e ∈ j.predicate, e.ReadsBack listed) : j.ReadsBack listed := by
  refine ⟨nofun, fun n j' short deep => ?_⟩
  obtain ⟨k, find, rfl, fields, record, -⟩ := short.ordinaryRecord (by decide) (by simp) deep
  simp only [List.forall_mem_cons, List.map_cons, List.map_nil] at fields record
  obtain ⟨kindField, sourceField, predicateField, -⟩ := fields
  have predicate := predicateField.optional predicate (by simp [Select.defaultMembers])
  cases j
  simp [Join.read, record, kindField.required (JoinKind.readsBack _), sourceField.required source,
    predicate]

theorem FunctionCall.readsBack {call : FunctionCall}
    (h : ∀ e ∈ call.arguments, e.ReadsBack listed) :
    Json.ReadsBack (FunctionCall.read listed) call.toJson call := by
  rw [call.toJson_eq]
  refine ⟨nofun, fun n j short deep => ?_⟩
  obtain ⟨k, find, rfl, fields, record, -⟩ := short.ordinaryRecord (by decide) (by simp) deep
  simp only [List.forall_mem_cons, List.map_cons, List.map_nil] at fields record
  obtain ⟨name, schema, isBuiltIn, isNiladic, isNullable, propagatesNull, arguments, type, -⟩ :=
    fields
  have schema := schema.optionalText (by simp [Select.defaultMembers])
  have propagatesNull := propagatesNull.required (.list fun b _ => .bool b)
  cases call
  simp [FunctionCall.read, record, name.required (.str _), schema, isBuiltIn.required (.bool _),
    isNiladic.required (.bool _), isNullable.required (.bool _), propagatesNull,
    arguments.required (.list h), type.required (SqlType.readsBack _)]

theorem TableFunction.readsBack {call : TableFunction}
    (h : ∀ e ∈ call.arguments, e.ReadsBack listed) :
    Json.ReadsBack (TableFunction.read listed) call.toJson call := by
  rw [call.toJson_eq]
  refine ⟨nofun, fun n j short deep => ?_⟩
  obtain ⟨k, find, rfl, fields, record, -⟩ := short.ordinaryRecord (by decide) (by simp) deep
  simp only [List.forall_mem_cons, List.map_cons, List.map_nil] at fields record
  obtain ⟨name, schema, isBuiltIn, arguments, aliasName, -⟩ := fields
  have schema := schema.optionalText (by simp [Select.defaultMembers])
  cases call
  simp [TableFunction.read, record, name.required (.str _), schema, isBuiltIn.required (.bool _),
    arguments.required (.list h), aliasName.required (.str _)]

theorem SetOperation.readsBack {operation : SetOperation}
    (left : operation.left.ReadsBack listed) (right : operation.right.ReadsBack listed) :
    Json.ReadsBack (SetOperation.read listed) operation.toJson operation := by
  cases operation
  refine ⟨nofun, fun n j short deep => ?_⟩
  obtain ⟨k, find, rfl, fields, record, -⟩ := short.ordinaryRecord (by decide) (by simp) deep
  simp only [List.forall_mem_cons, List.map_cons, List.map_nil] at fields record
  obtain ⟨operator, distinct, leftField, rightField, aliasName, -⟩ := fields
  simp [SetOperation.read, record, operator.required (SetOperator.readsBack _),
    distinct.required (.bool _), leftField.required left, rightField.required right,
    aliasName.required (.str _)]

namespace Expr

theorem whenReadsBack {w : Expr × Expr} (condition : w.1.ReadsBack listed)
    (result : w.2.ReadsBack listed) : Json.ReadsBack (Expr.readWhen listed) (whenToJson w) w := by
  refine ⟨nofun, fun n j short deep => ?_⟩
  cases short with
  | scalar h => cases h
  | @arr _ items short =>
    rcases short with _ | ⟨first, _ | ⟨second, ⟨⟩⟩⟩
    cases n with
    | zero => exact absurd deep (by rw [Json.depth]; omega)
    | succ k =>
      simp only [Json.depth, Json.depthItems] at deep
      simp [Expr.readWhen, condition.found k _ first (by omega), result.found k _ second (by omega)]

theorem unary_readsBack {op : UnaryOp} {operand : Expr} {type : SqlType}
    (h : operand.ReadsBack listed) : (unary op operand type).ReadsBack listed := by
  rw [ReadsBack, toJson]
  refine ⟨nofun, fun n j short deep => ?_⟩
  obtain ⟨k, payload, find, rfl, rfl, fields, record⟩ :=
    short.variantRecord (by decide) (by simp) deep
  simp only [List.forall_mem_cons, List.map_cons, List.map_nil] at fields record
  obtain ⟨opField, operandField, typeField, -⟩ := fields
  rw [Expr.read]
  simp [Json.variant, Json.tagged?, record, opField.required op.readsBack,
    operandField.required h, typeField.required type.readsBack]

theorem binary_readsBack {left right : Expr} {op : BinaryOp} {type : SqlType}
    (hl : left.ReadsBack listed) (hr : right.ReadsBack listed) :
    (binary left op right type).ReadsBack listed := by
  rw [ReadsBack, toJson]
  refine ⟨nofun, fun n j short deep => ?_⟩
  obtain ⟨k, payload, find, rfl, rfl, fields, record⟩ :=
    short.variantRecord (by decide) (by simp) deep
  simp only [List.forall_mem_cons, List.map_cons, List.map_nil] at fields record
  obtain ⟨leftField, opField, rightField, typeField, -⟩ := fields
  rw [Expr.read]
  simp [Json.variant, Json.tagged?, record, leftField.required hl,
    opField.required op.readsBack, rightField.required hr, typeField.required type.readsBack]

theorem exists_readsBack {q : Select} {negated : Bool} (h : q.ReadsBack listed) :
    (Expr.exists q negated).ReadsBack listed := by
  rw [ReadsBack, toJson]
  refine ⟨nofun, fun n j short deep => ?_⟩
  obtain ⟨k, payload, find, rfl, rfl, fields, record⟩ :=
    short.variantRecord (by decide) (by simp) deep
  simp only [List.forall_mem_cons, List.map_cons, List.map_nil] at fields record
  obtain ⟨subquery, negatedField, -⟩ := fields
  rw [Expr.read]
  simp [Json.variant, Json.tagged?, record, subquery.required h,
    negatedField.required (.bool _)]

theorem inList_readsBack {item : Expr} {values : List Expr} {negated : Bool}
    (hi : item.ReadsBack listed) (hv : ∀ e ∈ values, e.ReadsBack listed) :
    (inList item values negated).ReadsBack listed := by
  rw [ReadsBack, toJson, jsonItems_eq]
  refine ⟨nofun, fun n j short deep => ?_⟩
  obtain ⟨k, payload, find, rfl, rfl, fields, record⟩ :=
    short.variantRecord (by decide) (by simp) deep
  simp only [List.forall_mem_cons, List.map_cons, List.map_nil] at fields record
  obtain ⟨itemField, valuesField, negatedField, -⟩ := fields
  obtain ⟨j, found, short, below⟩ := valuesField.kept nofun
  obtain ⟨k, list, rfl, rfl, short, below⟩ := short.variant nofun below
  have values := (Json.ReadsBack.list hv).found (k + 1) list short (Nat.le_succ_of_le below)
  rw [Expr.read]
  simp [Json.variant, Json.tagged?, record, itemField.required hi,
    negatedField.required (.bool _), found, values]

theorem inSelect_readsBack {item : Expr} {q : Select} {negated : Bool}
    (hi : item.ReadsBack listed) (hq : q.ReadsBack listed) :
    (inSelect item q negated).ReadsBack listed := by
  rw [ReadsBack, toJson]
  refine ⟨nofun, fun n j short deep => ?_⟩
  obtain ⟨k, payload, find, rfl, rfl, fields, record⟩ :=
    short.variantRecord (by decide) (by simp) deep
  simp only [List.forall_mem_cons, List.map_cons, List.map_nil] at fields record
  obtain ⟨itemField, valuesField, negatedField, -⟩ := fields
  obtain ⟨j, found, short, below⟩ := valuesField.kept nofun
  obtain ⟨k, select, rfl, rfl, short, below⟩ := short.variant hq.given below
  have values := hq.found (k + 1) select short (Nat.le_succ_of_le below)
  rw [Expr.read]
  simp [Json.variant, Json.tagged?, record, itemField.required hi,
    negatedField.required (.bool _), found, values]

theorem like_readsBack {item pattern : Expr} {escape : Option Expr} {negated : Bool}
    (hi : item.ReadsBack listed) (hp : pattern.ReadsBack listed)
    (he : ∀ e ∈ escape, e.ReadsBack listed) :
    (like item pattern escape negated).ReadsBack listed := by
  rw [ReadsBack, toJson_like]
  refine ⟨nofun, fun n j short deep => ?_⟩
  obtain ⟨k, payload, find, rfl, rfl, fields, record⟩ :=
    short.variantRecord (by decide) (by simp) deep
  simp only [List.forall_mem_cons, List.map_cons, List.map_nil] at fields record
  obtain ⟨itemField, patternField, escapeField, negatedField, -⟩ := fields
  have escape := escapeField.optional he (by simp [Select.defaultMembers])
  rw [Expr.read]
  simp [Json.variant, Json.tagged?, record, itemField.required hi,
    patternField.required hp, escape, negatedField.required (.bool _)]

theorem case_readsBack {operand otherwise : Option Expr} {whens : List (Expr × Expr)}
    {type : SqlType} (ho : ∀ e ∈ operand, e.ReadsBack listed)
    (hw : ∀ w ∈ whens, w.1.ReadsBack listed ∧ w.2.ReadsBack listed)
    (he : ∀ e ∈ otherwise, e.ReadsBack listed) :
    (Expr.case operand whens otherwise type).ReadsBack listed := by
  rw [ReadsBack, toJson_case]
  refine ⟨nofun, fun n j short deep => ?_⟩
  obtain ⟨k, payload, find, rfl, rfl, fields, record⟩ :=
    short.variantRecord (by decide) (by simp) deep
  simp only [List.forall_mem_cons, List.map_cons, List.map_nil] at fields record
  obtain ⟨operandField, whensField, otherwiseField, typeField, -⟩ := fields
  have operand := operandField.optional ho (by simp [Select.defaultMembers])
  have whens := whensField.required (.list fun w h => whenReadsBack (hw w h).1 (hw w h).2)
  have otherwise := otherwiseField.optional he (by simp [Select.defaultMembers])
  rw [Expr.read]
  simp [Json.variant, Json.tagged?, record, operand, whens, otherwise,
    typeField.required type.readsBack]

end Expr

theorem Select.readsBack {q : Select} (projections : ∀ p ∈ q.projections, p.expr.ReadsBack listed)
    (sources : ∀ s ∈ q.sources, s.ReadsBack listed) (joins : ∀ j ∈ q.joins, j.ReadsBack listed)
    (predicate : ∀ e ∈ q.predicate, e.ReadsBack listed)
    (groupBy : ∀ e ∈ q.groupBy, e.ReadsBack listed) (having : ∀ e ∈ q.having, e.ReadsBack listed)
    (orderings : ∀ t ∈ q.orderings, t.expr.ReadsBack listed)
    (limit : ∀ e ∈ q.limit, e.ReadsBack listed) (offset : ∀ e ∈ q.offset, e.ReadsBack listed) :
    q.ReadsBack listed := by
  rw [ReadsBack, toJson_eq]
  refine ⟨nofun, fun n j short deep => ?_⟩
  obtain ⟨k, find, rfl, fields, -, record, -⟩ := short.record (by simp) deep
  simp only [List.forall_mem_cons, List.map_cons, List.map_nil] at fields record
  obtain ⟨distinctField, projectionsField, sourcesField, joinsField, predicateField, groupByField,
    havingField, orderingsField, limitField, offsetField, -⟩ := fields
  have distinct := distinctField.defaulted false (.bool _)
    (by simp [Select.defaultMembers])
  have projections := projectionsField.defaulted []
    (.list fun p hp => Projection.readsBack (projections p hp)) (by simp [Select.defaultMembers])
  have sources := sourcesField.defaulted [] (.list sources)
    (by simp [Select.defaultMembers])
  have joins := joinsField.defaulted [] (.list joins) (by simp [Select.defaultMembers])
  have groupBy := groupByField.defaulted [] (.list groupBy)
    (by simp [Select.defaultMembers])
  have orderings := orderingsField.defaulted []
    (.list fun t ht => SortTerm.readsBack (orderings t ht)) (by simp [Select.defaultMembers])
  have predicate := predicateField.optional predicate (by simp [Select.defaultMembers])
  have having := havingField.optional having (by simp [Select.defaultMembers])
  have limit := limitField.optional limit (by simp [Select.defaultMembers])
  have offset := offsetField.optional offset (by simp [Select.defaultMembers])
  cases q
  simp [Select.read, record, distinct, projections, sources, joins, predicate, groupBy, having,
    orderings, limit, offset]

namespace Source

theorem table_readsBack {name : String} {schema aliasName : Option String} :
    (table name schema aliasName).ReadsBack listed := by
  rw [ReadsBack, toJson]
  refine ⟨nofun, fun n j short deep => ?_⟩
  obtain ⟨k, payload, find, rfl, rfl, fields, record⟩ :=
    short.variantRecord (by decide) (by simp) deep
  simp only [List.forall_mem_cons, List.map_cons, List.map_nil] at fields record
  obtain ⟨nameField, schemaField, aliasField, -⟩ := fields
  have schema := schemaField.optionalText (by simp [Select.defaultMembers])
  have aliasName := aliasField.optionalText (by simp [Select.defaultMembers])
  rw [Source.read]
  simp [Json.variant, Json.tagged?, record, nameField.required (.str _), schema, aliasName]

theorem derived_readsBack {q : Select} {aliasName : String} (h : q.ReadsBack listed) :
    (derived q aliasName).ReadsBack listed := by
  rw [ReadsBack, toJson]
  refine ⟨nofun, fun n j short deep => ?_⟩
  obtain ⟨k, payload, find, rfl, rfl, fields, record⟩ :=
    short.variantRecord (by decide) (by simp) deep
  simp only [List.forall_mem_cons, List.map_cons, List.map_nil] at fields record
  obtain ⟨select, aliasField, -⟩ := fields
  rw [Source.read]
  simp [Json.variant, Json.tagged?, record, select.required h, aliasField.required (.str _)]

end Source

/-! ### The tree -/

namespace Node

def ReadsBack (listed : Bool) : Node → Prop
  | expr e => e.ReadsBack listed
  | block q => q.ReadsBack listed
  | source s => s.ReadsBack listed
  | join j => j.ReadsBack listed

/-- The constants that a node has by itself are finite. -/
def IsFinite (n : Node) : Prop :=
  (∀ l, .literal l ∈ n.ownLeaves → l.value.IsFinite) ∧
    ∀ p, .parameter p ∈ n.ownLeaves → p.value.IsFinite

/-- A node is found in its form where its parts are found in theirs. -/
theorem readsBack_of_parts {n : Node} (finite : n.IsFinite)
    (h : ∀ m ∈ n.parts, m.ReadsBack listed) : n.ReadsBack listed := by
  cases n with
  | block q =>
    simp only [parts, List.forall_mem_append, List.forall_mem_map, Option.mem_toList] at h
    obtain ⟨⟨⟨⟨⟨⟨⟨⟨projections, sources⟩, joins⟩, predicate⟩, groupBy⟩, having⟩, orderings⟩, limit⟩,
      offset⟩ := h
    exact Select.readsBack projections sources joins predicate groupBy having orderings limit offset
  | expr e =>
    cases e with
    | column c =>
      exact c.readsBack.variant fun n j => by simp [Expr.read, Json.variant, Json.tagged?]
    | literal l =>
      exact (l.readsBack (finite.1 l List.mem_cons_self)).variant fun n j => by
        simp [Expr.read, Json.variant, Json.tagged?]
    | parameter p =>
      exact (p.readsBack (finite.2 p List.mem_cons_self)).variant fun n j => by
        simp [Expr.read, Json.variant, Json.tagged?]
    | fragment text =>
      exact (Json.ReadsBack.str text).variant fun n j => by
        simp [Expr.read, Json.variant, Json.tagged?]
    | unary op operand type =>
      exact Expr.unary_readsBack (h (.expr operand) (by simp [parts]))
    | binary left op right type =>
      exact Expr.binary_readsBack (h (.expr left) (by simp [parts]))
        (h (.expr right) (by simp [parts]))
    | function call =>
      rw [parts, List.forall_mem_map] at h
      exact (FunctionCall.readsBack h).variant fun n j => by
        simp [Expr.read, Json.variant, Json.tagged?]
    | subquery q =>
      exact (h (.block q) (by simp [parts])).variant fun n j => by
        simp [Expr.read, Json.variant, Json.tagged?]
    | «exists» q negated => exact Expr.exists_readsBack (h (.block q) (by simp [parts]))
    | inList item values negated =>
      rw [parts, List.forall_mem_cons, List.forall_mem_map] at h
      exact Expr.inList_readsBack h.1 h.2
    | inSelect item q negated =>
      exact Expr.inSelect_readsBack (h (.expr item) (by simp [parts]))
        (h (.block q) (by simp [parts]))
    | like item pattern escape negated =>
      simp only [parts, List.forall_mem_cons, List.forall_mem_map, Option.mem_toList] at h
      exact Expr.like_readsBack h.1 h.2.1 h.2.2
    | case operand whens otherwise type =>
      simp only [parts, List.forall_mem_append, List.forall_mem_map, List.forall_mem_flatMap,
        List.forall_mem_cons, Option.mem_toList] at h
      exact Expr.case_readsBack h.1.1 (fun w hw => ⟨(h.1.2 w hw).1, (h.1.2 w hw).2.1⟩) h.2
  | source s =>
    cases s with
    | table name schema aliasName => exact Source.table_readsBack
    | derived q aliasName => exact Source.derived_readsBack (h (.block q) (by simp [parts]))
    | function call =>
      rw [parts, List.forall_mem_map] at h
      exact (TableFunction.readsBack h).variant fun n j => by
        simp [Source.read, Json.variant, Json.tagged?]
    | set operation =>
      exact (SetOperation.readsBack (h (.block operation.left) (by simp [parts]))
        (h (.block operation.right) (by simp [parts]))).variant fun n j => by
          simp [Source.read, Json.variant, Json.tagged?]
  | join j =>
    simp only [parts, List.forall_mem_cons, List.forall_mem_map, Option.mem_toList] at h
    exact Join.readsBack h.1 h.2

theorem readsBack (n : Node) (finite : ∀ k, n.Contains k → k.IsFinite) : n.ReadsBack listed :=
  of_contained (fun _ => readsBack_of_parts) n finite

end Node

namespace Select

end Select

end SelectCompiler
