import SelectCompiler.Proofs.Tree.NodeTokens
import SelectCompiler.Proofs.Tree.Qualification

/-!
The default schema of SQL Server. Main statement: it does what writing the schema into the tree does
beforehand, for every function at every depth that it is meant for, and built-in functions never get
one.
-/

namespace SelectCompiler

variable {schema other : String} {o : Options}

/-- A call is qualified as the dialect qualifies it on its own. -/
theorem Dialect.qualifyCall?_sqlServer (schema : String) (call : FunctionCall) :
    ((sqlServer schema).qualifyCall? call).getD call =
      { call with schema := qualifiedSchema schema call.isBuiltIn call.schema } := by
  cases call
  unfold qualifyCall? qualifiedSchema
  split <;> rfl

theorem Dialect.qualifyTableFunction?_sqlServer (schema : String) (call : TableFunction) :
    ((sqlServer schema).qualifyTableFunction? call).getD call =
      { call with schema := qualifiedSchema schema call.isBuiltIn call.schema } := by
  cases call
  unfold qualifyTableFunction? qualifiedSchema
  split <;> rfl

/-- Where the schema is written into the tree, that of the dialect does not matter. -/
theorem Dialect.schemaOf_qualifiedSchema (named : schema ≠ "") (other : String) (isBuiltIn : Bool)
    (given : Option String) :
    (sqlServer other).schemaOf isBuiltIn (qualifiedSchema schema isBuiltIn given) =
      (sqlServer schema).schemaOf isBuiltIn given := by
  have default : givenName (some schema) = some schema := by simp [givenName, named]
  have defaultSchema : (sqlServer schema).defaultSchema = some schema := rfl
  unfold schemaOf qualifiedSchema
  cases isBuiltIn <;> cases h : givenName given <;> simp [h, default, defaultSchema]

theorem isSome_qualifiedSchema (isBuiltIn : Bool) (given : Option String) :
    (isBuiltIn && (givenName (qualifiedSchema schema isBuiltIn given)).isSome) =
      (isBuiltIn && (givenName given).isSome) := by
  cases isBuiltIn <;> rfl

theorem callFaults_qualifiedSchema (name : String) (given : Option String)
    (isBuiltIn isNiladic : Bool) (arguments flags : Nat) :
    callFaults name (qualifiedSchema schema isBuiltIn given) isBuiltIn isNiladic arguments flags =
      callFaults name given isBuiltIn isNiladic arguments flags := by
  rw [callFaults, isSome_qualifiedSchema, callFaults]

/-! ### The text -/

section Lists

variable {α β : Type}

theorem map_map_congr {f : α → α} {g g' : α → β} {xs : List α} (h : ∀ x ∈ xs, g' (f x) = g x) :
    (xs.map f).map g' = xs.map g := by
  rw [List.map_map]
  exact List.map_congr_left h

theorem option_map_map_congr {f : α → α} {g g' : α → β} {x? : Option α}
    (h : ∀ x ∈ x?, g' (f x) = g x) : (x?.map f).map g' = x?.map g := by
  rw [Option.map_map]
  exact Option.map_congr h

theorem flatMap_map_congr {f : α → α} {g g' : α → List β} {xs : List α}
    (h : ∀ x ∈ xs, g' (f x) = g x) : (xs.map f).flatMap g' = xs.flatMap g := by
  rw [List.flatMap_map]
  exact List.flatMap_congr h

theorem flatMap_option_congr {f : α → α} {g g' : α → List β} {x? : Option α}
    (h : ∀ x ∈ x?, g' (f x) = g x) :
    (x?.map f).toList.flatMap g' = x?.toList.flatMap g := by
  rw [Option.toList_map]
  exact flatMap_map_congr fun x hx => h x (Option.mem_toList.1 hx)

end Lists

/-- Qualified trees are written as the default schema has them written. -/
theorem tokens_qualify (named : schema ≠ "") (other : String) (o : Options) :
    TreeStep
      (fun e => (e.qualify schema).tokens (.sqlServer other) o = e.tokens (.sqlServer schema) o)
      (fun q => (q.qualify schema).tokens (.sqlServer other) o = q.tokens (.sqlServer schema) o)
      (fun s => (s.qualify schema).tokens (.sqlServer other) o =
        s.tokens (.sqlServer schema) o) where
  column c := rfl
  literal l := rfl
  parameter p := rfl
  unary op operand type ih := by
    cases op <;> simp [Expr.qualify, Expr.tokens, ih]
    rfl
  binary left op right type ihl ihr := by
    simp only [Expr.qualify, Expr.tokens, ihl, ihr, Expr.enclosedOnLeft_qualify,
      Expr.enclosedOnRight_qualify]
    rfl
  function call ih := by
    rw [call.qualify_eq, FunctionCall.tokens_eq, FunctionCall.tokens_eq, map_map_congr ih,
      Dialect.schemaOf_qualifiedSchema named]
  subquery q ih := congrArg Token.enclosed ih
  exist q negated ih := by simp only [Expr.qualify, Expr.tokens, ih]
  inList item values negated ihi ihv := by
    simp only [Expr.qualify, Expr.tokens, Expr.tokensEach_eq, Expr.qualifyEach_eq,
      map_map_congr ihv, ihi, Expr.enclosedInTest_qualify]
  inSelect item q negated ihi ihq := by
    simp only [Expr.qualify, Expr.tokens, ihi, ihq, Expr.enclosedInTest_qualify]
  like item pattern escape negated ihi ihp ihe := by
    rw [Expr.qualify, Expr.like_tokens, Expr.like_tokens, Expr.qualifyOption_eq,
      option_map_map_congr ihe, ihi, ihp, Expr.enclosedInTest_qualify, Expr.enclosedInTest_qualify]
  case operand whens otherwise type iho ihw ihe := by
    have arm : ∀ w ∈ whens, Expr.armTokens (.sqlServer other) o
        (w.1.qualify schema, w.2.qualify schema) = Expr.armTokens (.sqlServer schema) o w := by
      intro w hw
      rw [Expr.armTokens, (ihw w hw).1, (ihw w hw).2, Expr.armTokens]
    have lead : ∀ e ∈ operand, Token.space :: (e.qualify schema).tokens (.sqlServer other) o =
        .space :: e.tokens (.sqlServer schema) o :=
      fun e he => congrArg _ (iho e he)
    rw [Expr.qualify, Expr.case_tokens, Expr.case_tokens, Expr.qualifyOption_eq,
      Expr.qualifyOption_eq, Expr.qualifyWhens_eq, option_map_map_congr ihe, map_map_congr arm,
      flatMap_option_congr lead]
  fragment text := rfl
  block q ihp ihs ihj ihw ihg ihh iho ihl ihk := by
    have projections : (q.projections.map (Projection.qualify schema)).map (fun p =>
          p.expr.tokens (.sqlServer other) o ++ projectionAlias p.expr p.aliasName) =
        q.projections.map fun p =>
          p.expr.tokens (.sqlServer schema) o ++ projectionAlias p.expr p.aliasName :=
      map_map_congr fun p hp => by rw [Projection.qualify, projectionAlias_qualify, ihp p hp]
    have joins : (q.joins.map (Join.qualify schema)).map (Join.tokens (.sqlServer other) o) =
        q.joins.map (Join.tokens (.sqlServer schema) o) :=
      map_map_congr fun j hj => by
        rw [Join.tokens, Join.qualify, option_map_map_congr (ihj j hj).2, (ihj j hj).1, Join.tokens]
    have orderings : (q.orderings.map (SortTerm.qualify schema)).map (fun t =>
          t.expr.tokens (.sqlServer other) o ++
            if t.ascending then [] else [Token.space, .word "DESC"]) =
        q.orderings.map fun t =>
          t.expr.tokens (.sqlServer schema) o ++
            if t.ascending then [] else [Token.space, .word "DESC"] :=
      map_map_congr fun t ht => by rw [SortTerm.qualify, iho t ht]
    have clauses : (q.qualify schema).clauses (.sqlServer other) o =
        q.clauses (.sqlServer schema) o := by
      rw [q.qualify_eq]
      simp only [Select.clauses, projections, map_map_congr ihs, joins, option_map_map_congr ihw,
        map_map_congr ihg, option_map_map_congr ihh, orderings, option_map_map_congr ihl,
        option_map_map_congr ihk]
    rw [Select.tokens_eq, clauses, Select.tokens_eq]
    rfl
  table name given aliasName := rfl
  derived q aliasName ih := by
    simp only [Source.qualify, Source.tokens, ih]
    rfl
  tableFunction call ih := by
    rw [call.qualify_eq, TableFunction.tokens_eq, TableFunction.tokens_eq, map_map_congr ih,
      Dialect.schemaOf_qualifiedSchema named]
    rfl
  set operation ihl ihr := by
    rw [operation.qualify_eq, SetOperation.tokens_eq, SetOperation.tokens_eq, ihl, ihr,
      Select.isPaged_qualify, Select.isPaged_qualify]
    rfl

/-! ### The faults -/

/-- Qualifying a tree neither mends a fault nor makes one. -/
theorem faults_qualify (schema other : String) (o : Options) :
    TreeStep
      (fun e => (e.qualify schema).faults (.sqlServer other) o = e.faults (.sqlServer schema) o)
      (fun q => (q.qualify schema).faults (.sqlServer other) o = q.faults (.sqlServer schema) o)
      (fun s => (s.qualify schema).faults (.sqlServer other) o =
        s.faults (.sqlServer schema) o) where
  column c := rfl
  literal l := rfl
  parameter p := rfl
  unary op operand type ih := ih
  binary left op right type ihl ihr := by simp only [Expr.qualify, Expr.faults, ihl, ihr]
  function call ih := by
    rw [call.qualify_eq, FunctionCall.faults_eq, FunctionCall.faults_eq, flatMap_map_congr ih,
      callFaults_qualifiedSchema, List.length_map]
  subquery q ih := ih
  exist q negated ih := ih
  inList item values negated ihi ihv := by
    simp only [Expr.qualify, Expr.faults, Expr.faultsEach_eq, Expr.qualifyEach_eq,
      flatMap_map_congr ihv, ihi, List.isEmpty_map]
  inSelect item q negated ihi ihq := by simp only [Expr.qualify, Expr.faults, ihi, ihq]
  like item pattern escape negated ihi ihp ihe := by
    rw [Expr.qualify, Expr.like_faults, Expr.like_faults, Expr.qualifyOption_eq,
      flatMap_option_congr ihe, ihi, ihp]
  case operand whens otherwise type iho ihw ihe := by
    have arms : (whens.map fun w => (w.1.qualify schema, w.2.qualify schema)).flatMap (fun w =>
          w.1.faults (.sqlServer other) o ++ w.2.faults (.sqlServer other) o) =
        whens.flatMap fun w =>
          w.1.faults (.sqlServer schema) o ++ w.2.faults (.sqlServer schema) o :=
      flatMap_map_congr fun w hw => by rw [(ihw w hw).1, (ihw w hw).2]
    rw [Expr.qualify, Expr.case_faults, Expr.case_faults, Expr.qualifyOption_eq,
      Expr.qualifyOption_eq, Expr.qualifyWhens_eq, flatMap_option_congr iho,
      flatMap_option_congr ihe, arms, List.isEmpty_map]
  fragment text := rfl
  block q ihp ihs ihj ihw ihg ihh iho ihl ihk := by
    have scope : scopeFaults (q.qualify schema).allSources = scopeFaults q.allSources :=
      q.scopeFaults_qualify
    have projections : (q.projections.map (Projection.qualify schema)).flatMap
          (·.expr.faults (.sqlServer other) o) =
        q.projections.flatMap (·.expr.faults (.sqlServer schema) o) :=
      flatMap_map_congr ihp
    have joins : (q.joins.map (Join.qualify schema)).flatMap (Join.faults (.sqlServer other) o) =
        q.joins.flatMap (Join.faults (.sqlServer schema) o) :=
      flatMap_map_congr fun j hj => by
        rw [Join.faults, Join.qualify, flatMap_option_congr (ihj j hj).2, (ihj j hj).1,
          Option.isSome_map]
        rfl
    have orderings : (q.orderings.map (SortTerm.qualify schema)).flatMap
          (·.expr.faults (.sqlServer other) o) =
        q.orderings.flatMap (·.expr.faults (.sqlServer schema) o) :=
      flatMap_map_congr iho
    rw [q.qualify_eq] at scope ⊢
    rw [Select.faults_eq, Select.faults_eq, scope]
    simp only [projections, flatMap_map_congr ihs, joins, flatMap_option_congr ihw,
      flatMap_map_congr ihg, flatMap_option_congr ihh, orderings, option_map_map_congr ihl,
      option_map_map_congr ihk, Dialect.leadingFaults_qualify, Dialect.trailingFaults_qualify, List.isEmpty_map]
    rfl
  table name given aliasName := rfl
  derived q aliasName ih := congrArg (aliasFaults .derivedTable aliasName ++ ·) ih
  tableFunction call ih := by
    rw [call.qualify_eq, TableFunction.faults_eq, TableFunction.faults_eq, flatMap_map_congr ih,
      isSome_qualifiedSchema]
  set operation ihl ihr := by
    rw [operation.qualify_eq, SetOperation.faults_eq, SetOperation.faults_eq, ihl, ihr]
    rfl

/-! ### Compiled queries -/

/-- The name that a node has as a call of a built-in function. -/
def Node.builtInName? : Node → Option String
  | expr (.function call) => if call.isBuiltIn then some call.name else none
  | source (.function call) => if call.isBuiltIn then some call.name else none
  | _ => none

theorem Node.tokens_builtIn {d : Dialect} {n : Node} (sound : n.IsSound d o) {name : String}
    (builtIn : n.builtInName? = some name) : ∃ rest, n.tokens d o = .verbatim name :: rest := by
  cases n with
  | expr e =>
    cases e with
    | function call =>
      obtain ⟨own, eq⟩ := Option.ite_none_right_eq_some.1 builtIn
      obtain rfl := Option.some.inj eq
      have unqualified := givenName_eq_none_iff.2 (sound.unqualified own)
      rw [tokens, call.tokens_eq, Dialect.schemaOf, unqualified, own]
      exact ⟨_, rfl⟩
    | _ => cases builtIn
  | source s =>
    cases s with
    | function call =>
      obtain ⟨own, eq⟩ := Option.ite_none_right_eq_some.1 builtIn
      obtain rfl := Option.some.inj eq
      have unqualified := givenName_eq_none_iff.2 (sound.unqualified own)
      rw [tokens, call.tokens_eq, Dialect.schemaOf, unqualified, own]
      exact ⟨_, rfl⟩
    | _ => cases builtIn
  | block q => cases builtIn
  | join j => cases builtIn

theorem Dialect.command_sqlServer (schema other : String) (ts : List Token) :
    (sqlServer schema).command ts = (sqlServer other).command ts := by
  have text : (sqlServer schema).tokenText = (sqlServer other).tokenText := by
    funext position t
    cases t <;> rfl
  rw [command, command, texts_eq, texts_eq, text]

/-- A default schema gives the same result, a text or an error, as writing it into the tree, whatever
default the dialect has then. A call of a built-in function is written from its own name on. -/
theorem Select.compile_qualify (named : schema ≠ "") (o : Options) (t : Select) :
    (∀ other, t.compile (.sqlServer schema) o = (t.qualify schema).compile (.sqlServer other) o) ∧
    ∀ out, t.compile (.sqlServer schema) o = .ok out → ∀ n name, (Node.block t).Contains n →
      n.builtInName? = some name →
      ∃ before rest after,
        t.tokens (.sqlServer schema) o = before ++ .verbatim name :: rest ++ after ∧
        n.tokens (.sqlServer schema) o = .verbatim name :: rest ∧
        out.sql = (Dialect.sqlServer schema).textOf 1 before ++ name ++
          (Dialect.sqlServer schema).textOf (Token.after 1 before) (rest ++ after) := by
  constructor
  · intro other
    have faults : (t.qualify schema).faults (.sqlServer other) o = _ :=
      (faults_qualify schema other o).ofSelect t
    have tokens : (t.qualify schema).tokens (.sqlServer other) o = _ :=
      (tokens_qualify named other o).ofSelect t
    rw [compile, compile, faults, tokens, Dialect.command_sqlServer schema other]
  · intro out h n name contained builtIn
    have sound := (exists_compile_iff (.sqlServer schema) o t).1 ⟨out, h⟩ n contained
    obtain ⟨rest, written⟩ := Node.tokens_builtIn sound builtIn
    obtain ⟨before, after, place, -⟩ := text_contained (.sqlServer schema) h contained
    rw [written] at place
    refine ⟨before, rest, after, place, written, ?_⟩
    have tokens : t.tokens (.sqlServer schema) o =
        before ++ [Token.verbatim name] ++ (rest ++ after) := by
      rw [place]
      simp
    rw [compile_sql h, tokens, Dialect.textOf_append, Dialect.textOf_append,
      Dialect.textOf_singleton, Token.after_append]
    rfl

/-- Totals of a function of rows, rounded by a function of one's own. -/
def roundedTotals : Select :=
  let total : Expr := .column ⟨"total", some "r", .float, false⟩
  let sum : Expr := .function ⟨"SUM", none, true, false, true, [true], [total], .float⟩
  { projections := [⟨.function ⟨"round_up", some "", false, false, true, [true], [sum], .float⟩, ""⟩]
    sources := [.function ⟨"recent", none, false, [.literal ⟨.int 7, .int⟩], "r"⟩] }

theorem compile_qualify_roundedTotals :
    (roundedTotals.compile (.sqlServer "app") {}).toOption.map Command.sql =
      some "SELECT [app].[round_up](SUM([r].[total])) FROM [app].[recent](7) AS [r]" ∧
    roundedTotals.compile (.sqlServer "app") {} =
      (roundedTotals.qualify "app").compile (.sqlServer "dbo") {} :=
  ⟨by decide, (Select.compile_qualify (by decide) {} roundedTotals).1 "dbo"⟩

end SelectCompiler
