import SelectCompiler.Proofs.Tokens.Positions
import SelectCompiler.Proofs.Tree.NodeFaults

/-!
Which queries are compiled. Main statement: exactly those in which every node is sound, whatever
its depth; a node is judged by its own fields, by the dialect and by whether constants are bound.
-/

namespace SelectCompiler

/-! ### Sound nodes -/

/-- A limit or an offset that is known must be a number of rows. -/
def Expr.MayCountRows : Expr → Prop
  | .literal ⟨value, _⟩ | .parameter ⟨_, value, _⟩ => ∃ n, value = .int n ∧ 0 ≤ n.toInt
  | _ => True

/-- A number in the text is finite, and whole where an integer is declared. -/
def Literal.IsWritable (l : Literal) : Prop :=
  ∀ x, l.value = .float x →
    x.isFinite = true ∧ (l.type = .int ∨ l.type = .bigInt → x.isWhole = true)

structure FunctionCall.IsSound (call : FunctionCall) : Prop where
  unqualified : call.isBuiltIn = true → ∀ schema ∈ call.schema, schema = ""
  niladic : call.isNiladic = true → call.arguments = []
  flags : call.isNiladic = false → call.propagatesNull.length = call.arguments.length

structure TableFunction.IsSound (call : TableFunction) : Prop where
  aliased : call.aliasName ≠ ""
  unqualified : call.isBuiltIn = true → ∀ schema ∈ call.schema, schema = ""

structure SetOperation.IsSound (d : Dialect) (operation : SetOperation) : Prop where
  aliased : operation.aliasName ≠ ""
  supported : operation.operator ≠ .union → operation.distinct = false →
    d.name = "postgres" ∨ d.name = "mysql"

structure Join.IsSound (d : Dialect) (j : Join) : Prop where
  predicate : j.predicate.isSome = true ↔ j.kind = .inner ∨ j.kind = .left
  supported : j.kind = .crossApply ∨ j.kind = .outerApply →
    d.name = "sqlserver" ∨ d.name = "oracle"

structure Select.IsSound (q : Select) : Prop where
  aliases : (q.allSources.filterMap Source.alias?).Nodup
  sources : q.joins ≠ [] → q.sources ≠ []
  limit : ∀ e ∈ q.limit, e.MayCountRows
  offset : ∀ e ∈ q.offset, e.MayCountRows

def Node.IsSound (d : Dialect) (o : Options) : Node → Prop
  | expr (.literal l) => o.bindLiterals = false → l.IsWritable
  | expr (.function call) => call.IsSound
  | expr (.inList _ values _) => values ≠ []
  | expr (.case _ whens _ _) => whens ≠ []
  | expr _ => True
  | block q => q.IsSound
  | source (.table _ _ _) => True
  | source (.derived _ aliasName) => aliasName ≠ ""
  | source (.function call) => call.IsSound
  | source (.set operation) => operation.IsSound d
  | join j => j.IsSound d

/-! ### Nodes without faults of their own -/

theorem repeats_eq_nil_iff {α : Type} [BEq α] [LawfulBEq α] {before xs : List α} :
    repeats before xs = [] ↔ xs.Nodup ∧ ∀ x ∈ xs, x ∉ before := by
  induction xs generalizing before with
  | nil => simp [repeats]
  | cons x xs ih =>
    rw [repeats]
    split
    · rename_i seen
      have : x ∈ before := List.contains_iff_mem.1 seen
      simp [this]
    · rename_i seen
      have fresh : x ∉ before := fun h => seen (List.contains_iff_mem.2 h)
      rw [ih, List.nodup_cons, List.forall_mem_cons]
      constructor
      · rintro ⟨nodup, apart⟩
        refine ⟨⟨fun h => apart x h List.mem_cons_self, nodup⟩, fresh, fun y hy h => ?_⟩
        exact apart y hy (List.mem_cons_of_mem _ h)
      · rintro ⟨⟨first, nodup⟩, -, apart⟩
        refine ⟨nodup, fun y hy h => ?_⟩
        rcases List.mem_cons.1 h with rfl | h
        · exact first hy
        · exact apart y hy h

theorem scopeFaults_eq_nil_iff {sources : List Source} :
    scopeFaults sources = [] ↔ (sources.filterMap Source.alias?).Nodup := by
  rw [scopeFaults, List.map_eq_nil_iff, repeats_eq_nil_iff]
  simp

theorem Value.rowCount?_isSome_iff {v : Value} :
    v.rowCount?.isSome = true ↔ ∃ n, v = .int n ∧ 0 ≤ n.toInt := by
  cases v with
  | int n => by_cases h : 0 ≤ n.toInt <;> simp [rowCount?, h]
  | _ => simp [rowCount?]

theorem rowCountFaults_eq_nil_iff {part : PagingPart} {e : Expr} :
    rowCountFaults part e = [] ↔ e.MayCountRows := by
  cases e with
  | literal l =>
    rw [rowCountFaults, Expr.MayCountRows, ← Value.rowCount?_isSome_iff]
    split <;> simp_all
  | parameter p =>
    rw [rowCountFaults, Expr.MayCountRows, ← Value.rowCount?_isSome_iff]
    split <;> simp_all
  | _ => simp [rowCountFaults, Expr.MayCountRows]

/-- Whichever place the limit has, it is looked at once, and so is the offset. -/
theorem pagingFaults_eq_nil_iff {d : Dialect} (hd : d.BuiltIn) {limit offset : Option Expr} :
    d.leadingFaults limit offset = [] ∧ d.trailingFaults limit offset = [] ↔
      (∀ e ∈ limit, e.MayCountRows) ∧ ∀ e ∈ offset, e.MayCountRows := by
  cases hd <;> cases limit <;> cases offset <;>
    simp [Dialect.leadingFaults, Dialect.trailingFaults, Dialect.pagingPlan,
      rowCountFaults_eq_nil_iff, Dialect.postgres, Dialect.mysql, Dialect.sqlite,
      Dialect.sqlServer, Dialect.oracle]

theorem Literal.fault?_eq_none_iff {l : Literal} : l.fault? = none ↔ l.IsWritable := by
  obtain ⟨value, type⟩ := l
  cases value with
  | float x =>
    have integer : type.isInteger = true ↔ type = .int ∨ type = .bigInt := by
      cases type <;> simp [SqlType.isInteger]
    simp only [fault?, IsWritable, Value.float.injEq, forall_eq', ← integer]
    cases x.isFinite <;> cases type.isInteger <;> cases x.isWhole <;> simp
  | _ => simp [fault?, IsWritable]

theorem givenName_eq_none_iff {name : Option String} :
    givenName name = none ↔ ∀ s ∈ name, s = "" := by
  cases name <;> simp [givenName]

theorem FunctionCall.callFaults_eq_nil_iff {call : FunctionCall} :
    callFaults call.name call.schema call.isBuiltIn call.isNiladic call.arguments.length
      call.propagatesNull.length = [] ↔ call.IsSound := by
  have sound : call.IsSound ↔ (call.isBuiltIn = true → givenName call.schema = none) ∧
      (call.isNiladic = true → call.arguments = []) ∧
      (call.isNiladic = false → call.propagatesNull.length = call.arguments.length) := by
    simp only [givenName_eq_none_iff]
    exact ⟨fun h => ⟨h.1, h.2, h.3⟩, fun h => ⟨h.1, h.2.1, h.2.2⟩⟩
  rw [sound]
  cases h : call.isBuiltIn <;> cases h' : call.isNiladic <;> simp [callFaults]

theorem joinFaults_eq_nil_iff {d : Dialect} (hd : d.BuiltIn) {j : Join} :
    joinFaults d j.kind j.predicate.isSome = [] ↔ j.IsSound d := by
  have sound : j.IsSound d ↔
      (j.predicate.isSome = true ↔ j.kind = .inner ∨ j.kind = .left) ∧
      (j.kind = .crossApply ∨ j.kind = .outerApply → d.apply = true) := by
    have apply : d.apply = true ↔ d.name = "sqlserver" ∨ d.name = "oracle" := by
      cases hd <;> simp [Dialect.postgres, Dialect.mysql, Dialect.sqlite, Dialect.sqlServer,
        Dialect.oracle]
    rw [apply]
    exact ⟨fun h => ⟨h.1, h.2⟩, fun h => ⟨h.1, h.2⟩⟩
  rw [sound]
  cases j.kind <;> cases j.predicate.isSome <;> simp [joinFaults, JoinKind.takesPredicate]

theorem Dialect.supports_iff {d : Dialect} (hd : d.BuiltIn) {operator : SetOperator}
    {distinct : Bool} :
    d.supports operator distinct = true ↔
      (operator ≠ .union → distinct = false → d.name = "postgres" ∨ d.name = "mysql") := by
  cases hd <;> cases operator <;> cases distinct <;>
    simp [supports, postgres, mysql, sqlite, sqlServer, oracle]

theorem aliasFaults_eq_nil_iff {source : AliasedSource} {aliasName : String} :
    aliasFaults source aliasName = [] ↔ aliasName ≠ "" := by
  simp [aliasFaults]

theorem Node.ownFaults_eq_nil_iff {d : Dialect} (hd : d.BuiltIn) {o : Options} {n : Node} :
    n.ownFaults d o = [] ↔ n.IsSound d o := by
  cases n with
  | expr e =>
    cases e with
    | literal l =>
      rw [ownFaults, IsSound, ← Literal.fault?_eq_none_iff]
      cases h : o.bindLiterals <;> simp [literalFaults, h, Option.toList_eq_nil_iff]
    | function call => exact FunctionCall.callFaults_eq_nil_iff
    | inList item values negated => simp [ownFaults, IsSound]
    | case operand whens otherwise type => simp [ownFaults, IsSound]
    | _ => simp [ownFaults, IsSound]
  | block q =>
    have paging := @pagingFaults_eq_nil_iff d hd q.limit q.offset
    have joined : (if q.sources.isEmpty && !q.joins.isEmpty then [Fault.joinWithoutSource] else [])
        = [] ↔ (q.joins ≠ [] → q.sources ≠ []) := by
      cases q.sources <;> cases q.joins <;> simp
    simp only [ownFaults, IsSound, List.append_eq_nil_iff, scopeFaults_eq_nil_iff, joined]
    constructor
    · rintro ⟨⟨⟨aliases, front⟩, sources⟩, back⟩
      obtain ⟨limit, offset⟩ := paging.1 ⟨front, back⟩
      exact ⟨aliases, sources, limit, offset⟩
    · rintro ⟨aliases, sources, limit, offset⟩
      obtain ⟨front, back⟩ := paging.2 ⟨limit, offset⟩
      exact ⟨⟨⟨aliases, front⟩, sources⟩, back⟩
  | source s =>
    cases s with
    | table name schema aliasName => simp [ownFaults, IsSound]
    | derived q aliasName => exact aliasFaults_eq_nil_iff
    | function call =>
      have unqualified : (if call.isBuiltIn && (givenName call.schema).isSome then
          [Fault.qualifiedBuiltIn true call.name] else []) = [] ↔
          (call.isBuiltIn = true → ∀ schema ∈ call.schema, schema = "") := by
        rw [← givenName_eq_none_iff]
        cases call.isBuiltIn <;> simp
      rw [ownFaults, List.append_eq_nil_iff, aliasFaults_eq_nil_iff, unqualified]
      exact ⟨fun h => ⟨h.1, h.2⟩, fun h => ⟨h.1, h.2⟩⟩
    | set operation =>
      have supported : (if d.supports operation.operator operation.distinct then []
          else [Fault.setOperation operation.operator operation.distinct d.name]) = [] ↔
          d.supports operation.operator operation.distinct = true := by
        simp
      rw [ownFaults, List.append_eq_nil_iff, aliasFaults_eq_nil_iff, supported,
        Dialect.supports_iff hd]
      exact ⟨fun h => ⟨h.1, h.2⟩, fun h => ⟨h.1, h.2⟩⟩
  | join j => exact joinFaults_eq_nil_iff hd

theorem Select.faults_eq_nil_iff {d : Dialect} (hd : d.BuiltIn) {o : Options} {s : Select} :
    s.faults d o = [] ↔ ∀ n, (Node.block s).Contains n → n.IsSound d o := by
  simp only [← Node.ownFaults_eq_nil_iff hd]
  exact Node.faults_eq_nil_iff hd (.block s)

/-! ### Compiled queries -/

theorem Select.exists_compile_iff_faults {d : Dialect} {o : Options} {s : Select} :
    (∃ out, s.compile d o = .ok out) ↔ s.faults d o = [] := by
  constructor
  · rintro ⟨out, h⟩
    exact (compile_ok h).1
  · intro h
    exact ⟨_, by rw [compile, h]⟩

theorem Select.compile_error {d : Dialect} {o : Options} {s : Select} {fault : Fault}
    (h : s.compile d o = .error fault) : fault ∈ s.faults d o := by
  unfold compile at h
  cases faults : s.faults d o with
  | nil =>
    rw [faults] at h
    cases h
  | cons first others =>
    rw [faults] at h
    cases h
    exact List.mem_cons_self

/-- A query is compiled exactly when all its nodes are sound. -/
theorem Select.exists_compile_iff {d : Dialect} (hd : d.BuiltIn) (o : Options) (s : Select) :
    (∃ out, s.compile d o = .ok out) ↔ ∀ n, (Node.block s).Contains n → n.IsSound d o :=
  exists_compile_iff_faults.trans (faults_eq_nil_iff hd)

/-- The last invoices of every customer, by a join that not every database has. -/
def lastInvoices : Select :=
  let id : Expr := .column ⟨"id", some "c", .int, false⟩
  let customer : Expr := .column ⟨"customer", none, .int, false⟩
  let recent : Select :=
    { projections := [⟨.function ⟨"MAX", none, true, false, true, [true], [customer], .int⟩, "last"⟩]
      sources := [.table "invoices" none none]
      predicate := some (.binary customer .equal id .boolean)
      limit := some (.literal ⟨.int 3, .int⟩) }
  { projections := [⟨id, ""⟩]
    sources := [.table "customers" none (some "c")]
    joins := [⟨.outerApply, .derived recent "i", none⟩]
    predicate := some (.inList id [.parameter ⟨"first", .int 1, .int⟩] false) }

theorem exists_compile_iff_lastInvoices :
    (∀ n, (Node.block lastInvoices).Contains n → n.IsSound .oracle ⟨false⟩) ∧
      ¬∃ out, lastInvoices.compile .mysql ⟨false⟩ = .ok out := by
  refine ⟨(Select.exists_compile_iff .oracle _ _).1 ⟨_, rfl⟩, fun compiled => ?_⟩
  have sound := (Select.exists_compile_iff .mysql _ _).1 compiled
  have contained : ∀ j ∈ lastInvoices.joins, (Node.block lastInvoices).Contains (.join j) :=
    fun j hj => .part (by simp [Node.parts, hj]) (.self _)
  have lateral := sound _ (contained _ List.mem_cons_self)
  exact absurd (lateral.supported (.inr rfl)) (by decide)

end SelectCompiler
