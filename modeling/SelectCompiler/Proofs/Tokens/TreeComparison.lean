import SelectCompiler.Proofs.Tokens.BlockComparison
import SelectCompiler.Proofs.Tree.Revision

/-!
Trees of one shape are written alike, but where a minus stands before a constant. Main statement:
if a comparison fits the leaves of such trees, it fits their texts.
-/

namespace SelectCompiler

open Token (enclosedIf qualified contents)

/-- The revision that keeps of a constant behind a minus sign what `sign` keeps of it. -/
def Revision.finer (r : Revision) (sign : Literal → Literal) : Revision :=
  { r with negated := sign }

/-- The leaves that `r` makes equal are alike, and behind a minus sign `sign` tells them apart. -/
structure Comparison.Fits (c : Comparison) (d : Dialect) (o o' : Options) (r : Revision)
    (sign : Literal → Literal) : Prop where
  literal : ∀ l l', r.literal l = r.literal l' →
    c.alike (d.literalToken o l) (d.literalToken o' l')
  negated : ∀ l l', r.negated l = r.negated l' →
    c.Compares (sign l = sign l')
      (enclosedIf (Expr.literal l).enclosedUnderMinus [d.literalToken o l])
      (enclosedIf (Expr.literal l').enclosedUnderMinus [d.literalToken o' l'])
  parameter : ∀ p p', r.parameter p = r.parameter p' →
    c.alike (.placeholder ⟨some p.name, p.value, p.type⟩)
      (.placeholder ⟨some p'.name, p'.value, p'.type⟩)

section Trees

variable {c : Comparison} {d : Dialect} {o o' : Options} {r : Revision} {sign : Literal → Literal}

def Comparison.TellsExpr (c : Comparison) (d : Dialect) (o o' : Options) (r : Revision)
    (sign : Literal → Literal) : Expr → Prop :=
  c.Tells (Expr.revise r) (Expr.revise (r.finer sign)) (Expr.tokens d o) (Expr.tokens d o')

def Comparison.TellsSelect (c : Comparison) (d : Dialect) (o o' : Options) (r : Revision)
    (sign : Literal → Literal) : Select → Prop :=
  c.Tells (Select.revise r) (Select.revise (r.finer sign)) (Select.tokens d o) (Select.tokens d o')

def Comparison.TellsSource (c : Comparison) (d : Dialect) (o o' : Options) (r : Revision)
    (sign : Literal → Literal) : Source → Prop :=
  c.Tells (Source.revise r) (Source.revise (r.finer sign)) (Source.tokens d o) (Source.tokens d o')

open Comparison

/-! ### Operators -/

theorem tells_unary (fits : c.Fits d o o' r sign) {op : UnaryOp} {operand : Expr} {type : SqlType}
    (inner : c.TellsExpr d o o' r sign operand) :
    c.TellsExpr d o o' r sign (.unary op operand type) := by
  intro e' h
  cases e' with
  | unary op' operand' type' =>
    rw [Expr.revise, Expr.revise] at h
    injection h with ops parts types
    subst ops
    -- A constant behind a minus sign is compared together with its parentheses.
    rcases Revision.operand_cases parts with ⟨rfl, l, l', rfl, rfl, signs⟩ | ⟨operands, other⟩
    · rw [Expr.tokens, Expr.tokens, Expr.tokens, Expr.tokens]
      refine .cons rfl ((fits.negated l l' signs).mono fun sign => ?_)
      exact congrArg₂ (fun l type => Expr.unary .negate (.literal l) type) sign types
    · have inner := inner operand' operands
      have same (h : operand.revise (r.finer sign) = operand'.revise (r.finer sign)) :
          (Expr.unary op operand type).revise (r.finer sign) =
            (Expr.unary op operand' type').revise (r.finer sign) := by
        rw [Expr.revise, Expr.revise, Revision.operand_of_ne fun eq => (other eq).1,
          Revision.operand_of_ne fun eq => (other eq).2, h]
        exact congrArg _ types
      refine .mono ?_ same
      cases op with
      | not =>
        rw [Expr.tokens, Expr.tokens, eq_of_revise Expr.enclosedUnderNot_revise operands]
        exact .cons rfl (.cons rfl (inner.enclosedIf _))
      | negate =>
        have signs : operand.enclosedUnderMinus = operand'.enclosedUnderMinus := by
          rw [← Expr.enclosedUnderMinus_revise (r := r) (other rfl).1, operands,
            Expr.enclosedUnderMinus_revise (other rfl).2]
        rw [Expr.tokens, Expr.tokens, signs]
        exact .cons rfl (inner.enclosedIf _)
      | isNull =>
        rw [Expr.tokens, Expr.tokens, eq_of_revise Expr.enclosedInTest_revise operands]
        exact (inner.enclosedIf _).before (by simp)
      | isNotNull =>
        rw [Expr.tokens, Expr.tokens, eq_of_revise Expr.enclosedInTest_revise operands]
        exact (inner.enclosedIf _).before (by simp)
      | cast target =>
        have unbound : (d.typeToken target).binding? = none := by cases target <;> rfl
        exact .cons rfl (.enclosed ((inner.before (by simp)).snoc unbound))
  | _ => cases eq_of_revise Expr.ctorIdx_revise h

theorem tells_binary {left right : Expr} {op : BinaryOp} {type : SqlType}
    (first : c.TellsExpr d o o' r sign left) (second : c.TellsExpr d o o' r sign right) :
    c.TellsExpr d o o' r sign (.binary left op right type) := by
  intro e' h
  cases e' with
  | binary left' op' right' type' =>
    rw [Expr.revise, Expr.revise] at h
    injection h with lefts ops rights types
    subst ops
    rw [Expr.tokens, Expr.tokens, eq_of_revise (Expr.enclosedOnLeft_revise op) lefts,
      eq_of_revise (Expr.enclosedOnRight_revise op) rights]
    refine ((first left' lefts).binaryTokens d op _ _ (second right' rights)).mono ?_
    rintro ⟨left, right⟩
    rw [Expr.revise, Expr.revise, left, right]
    exact congrArg _ types
  | _ => cases eq_of_revise Expr.ctorIdx_revise h

/-! ### Calls and cases -/

/-- A niladic call does not write its arguments, so it must not have any. -/
theorem tells_function {call : FunctionCall}
    (niladic : call.isNiladic = true → call.arguments = [])
    (each : ∀ e ∈ call.arguments, c.TellsExpr d o o' r sign e) :
    c.TellsExpr d o o' r sign (.function call) := by
  intro e' h
  cases e' with
  | function call' =>
    rw [call.revise_eq, call'.revise_eq] at h
    injection h with h
    injection h with name schema isBuiltIn isNiladic nullable propagates arguments type
    have head := Compares.functionName (c := c) d call.isBuiltIn call.schema call.name
    have tail : c.Compares (call.arguments.map (Expr.revise (r.finer sign)) =
          call'.arguments.map (Expr.revise (r.finer sign)))
        (if call.isNiladic then []
          else Token.enclosed (Token.listed (call.arguments.map (Expr.tokens d o))))
        (if call.isNiladic then []
          else Token.enclosed (Token.listed (call'.arguments.map (Expr.tokens d o')))) := by
      split
      · rename_i isNiladic
        rw [niladic isNiladic] at arguments ⊢
        exact .inl ⟨by rw [List.map_eq_nil_iff.1 arguments.symm], .nil⟩
      · exact (ComparesEach.map each arguments).listed.enclosed
    rw [call.tokens_eq, call'.tokens_eq, ← name, ← schema, ← isBuiltIn, ← isNiladic]
    refine (head.append tail).mono ?_
    rintro ⟨-, fine⟩
    rw [call.revise_eq, call'.revise_eq, name, schema, isBuiltIn, isNiladic, fine]
    exact congrArg Expr.function (by simp only [Revision.finer, nullable, propagates, type])
  | _ => cases eq_of_revise Expr.ctorIdx_revise h

theorem tells_arm {w : Expr × Expr} (condition : c.TellsExpr d o o' r sign w.1)
    (result : c.TellsExpr d o o' r sign w.2) :
    c.Tells (fun w => (w.1.revise r, w.2.revise r))
      (fun w => (w.1.revise (r.finer sign), w.2.revise (r.finer sign))) (Expr.armTokens d o)
      (Expr.armTokens d o') w := by
  intro w' h
  obtain ⟨conditions, results⟩ := Prod.mk.inj h
  refine ((((condition _ conditions).behind (by simp)).before (by simp)).append
    (result _ results)).mono ?_
  rintro ⟨condition, result⟩
  exact Prod.ext condition result

theorem tells_case {operand otherwise : Option Expr} {whens : List (Expr × Expr)} {type : SqlType}
    (first : ∀ e ∈ operand, c.TellsExpr d o o' r sign e)
    (arms : ∀ w ∈ whens, c.TellsExpr d o o' r sign w.1 ∧ c.TellsExpr d o o' r sign w.2)
    (last : ∀ e ∈ otherwise, c.TellsExpr d o o' r sign e) :
    c.TellsExpr d o o' r sign (.case operand whens otherwise type) := by
  intro e' h
  cases e' with
  | case operand' whens' otherwise' type' =>
    simp only [Expr.revise, Expr.reviseOption_eq, Expr.reviseWhens_eq] at h
    injection h with operands whens others types
    have spaced : ∀ e ∈ operand, c.Tells (Expr.revise r) (Expr.revise (r.finer sign))
        (fun e => .space :: e.tokens d o) (fun e => .space :: e.tokens d o') e :=
      fun e he e' h => .cons rfl (first e he e' h)
    have arms := ComparesEach.map (fun w hw => tells_arm (arms w hw).1 (arms w hw).2) whens
    rw [Expr.case_tokens, Expr.case_tokens, flatMap_toList, flatMap_toList]
    refine (((((ComparesOption.map spaced operands).getD.append arms.flatten).cons
      (t := .word "CASE") rfl).append ((ComparesOption.map last others).optionalClause
      ["ELSE"])).before (by simp)).mono ?_
    rintro ⟨⟨operand, arms⟩, other⟩
    simp only [Expr.revise, Expr.reviseOption_eq, Expr.reviseWhens_eq, operand, arms, other]
    exact congrArg _ types
  | _ => cases eq_of_revise Expr.ctorIdx_revise h

/-! ### Tests -/

theorem tells_inList {item : Expr} {values : List Expr} {negated : Bool}
    (first : c.TellsExpr d o o' r sign item) (each : ∀ e ∈ values, c.TellsExpr d o o' r sign e) :
    c.TellsExpr d o o' r sign (.inList item values negated) := by
  intro e' h
  cases e' with
  | inList item' values' negated' =>
    simp only [Expr.revise, Expr.reviseEach_eq] at h
    injection h with items values negated
    subst negated
    simp only [Expr.tokens, Expr.tokensEach_eq, eq_of_revise Expr.enclosedInTest_revise items]
    refine ((((first _ items).enclosedIf _).before (by simp [testWords])).append
      (ComparesEach.map each values).listed.enclosed).mono ?_
    rintro ⟨item, values⟩
    simp only [Expr.revise, Expr.reviseEach_eq, item, values]
  | _ => cases eq_of_revise Expr.ctorIdx_revise h

theorem tells_inSelect {item : Expr} {q : Select} {negated : Bool}
    (first : c.TellsExpr d o o' r sign item) (block : c.TellsSelect d o o' r sign q) :
    c.TellsExpr d o o' r sign (.inSelect item q negated) := by
  intro e' h
  cases e' with
  | inSelect item' q' negated' =>
    obtain ⟨items, blocks, rfl⟩ := Expr.inSelect.inj h
    rw [Expr.tokens, Expr.tokens, eq_of_revise Expr.enclosedInTest_revise items]
    refine ((((first _ items).enclosedIf _).before (by simp [testWords])).append
      (block _ blocks).enclosed).mono ?_
    rintro ⟨item, block⟩
    rw [Expr.revise, Expr.revise, item, block]
  | _ => cases eq_of_revise Expr.ctorIdx_revise h

theorem tells_like {item pattern : Expr} {escape : Option Expr} {negated : Bool}
    (first : c.TellsExpr d o o' r sign item) (second : c.TellsExpr d o o' r sign pattern)
    (last : ∀ e ∈ escape, c.TellsExpr d o o' r sign e) :
    c.TellsExpr d o o' r sign (.like item pattern escape negated) := by
  intro e' h
  cases e' with
  | like item' pattern' escape' negated' =>
    simp only [Expr.revise, Expr.reviseOption_eq] at h
    injection h with items patterns escapes negated
    subst negated
    rw [Expr.like_tokens, Expr.like_tokens, eq_of_revise Expr.enclosedInTest_revise items,
      eq_of_revise Expr.enclosedInTest_revise patterns]
    refine (((((first _ items).enclosedIf _).before (by simp [testWords])).append
      ((second _ patterns).enclosedIf _)).append
      ((ComparesOption.map last escapes).optionalClause ["ESCAPE"])).mono ?_
    rintro ⟨⟨item, pattern⟩, escape⟩
    simp only [Expr.revise, Expr.reviseOption_eq, item, pattern, escape]
  | _ => cases eq_of_revise Expr.ctorIdx_revise h

/-! ### Blocks and sources -/

theorem tells_projection {p : Projection} (h : c.TellsExpr d o o' r sign p.expr) :
    c.Tells (Projection.revise r) (Projection.revise (r.finer sign))
      (fun p => p.expr.tokens d o ++ projectionAlias p.expr p.aliasName)
      (fun p => p.expr.tokens d o' ++ projectionAlias p.expr p.aliasName) p := by
  intro p' same
  injection same with exprs names
  have aliases : projectionAlias p.expr p.aliasName = projectionAlias p'.expr p'.aliasName := by
    rw [names]
    exact eq_of_revise (f := (projectionAlias · p'.aliasName))
      (projectionAlias_revise · p'.aliasName) exprs
  simp only [aliases]
  refine ((h _ exprs).append (.projectionAlias _ _)).mono ?_
  rintro ⟨fine, -⟩
  rw [Projection.revise, Projection.revise, fine, names]

theorem tells_sortTerm {t : SortTerm} (h : c.TellsExpr d o o' r sign t.expr) :
    c.Tells (SortTerm.revise r) (SortTerm.revise (r.finer sign))
      (fun t => t.expr.tokens d o ++ if t.ascending then [] else [Token.space, .word "DESC"])
      (fun t => t.expr.tokens d o' ++ if t.ascending then [] else [Token.space, .word "DESC"])
      t := by
  intro t' same
  injection same with exprs directions
  simp only [directions]
  refine ((h _ exprs).before ?_).mono ?_
  · cases t'.ascending <;> rfl
  · intro fine
    rw [SortTerm.revise, SortTerm.revise, fine, directions]

theorem tells_join {j : Join} (source : c.TellsSource d o o' r sign j.source)
    (on : ∀ e ∈ j.predicate, c.TellsExpr d o o' r sign e) :
    c.Tells (Join.revise r) (Join.revise (r.finer sign)) (Join.tokens d o) (Join.tokens d o')
      j := by
  intro j' same
  injection same with kinds sources predicates
  rw [Join.tokens, Join.tokens, kinds]
  refine (((source _ sources).behind (by simp)).append
    ((ComparesOption.map on predicates).optionalClause ["ON"])).mono ?_
  rintro ⟨source, predicate⟩
  rw [Join.revise, Join.revise, kinds, source, predicate]

theorem tells_block (hd : d.BuiltIn) {q : Select}
    (projections : ∀ p ∈ q.projections, c.TellsExpr d o o' r sign p.expr)
    (sources : ∀ s ∈ q.sources, c.TellsSource d o o' r sign s)
    (joins : ∀ j ∈ q.joins, c.TellsSource d o o' r sign j.source ∧
      ∀ e ∈ j.predicate, c.TellsExpr d o o' r sign e)
    (predicate : ∀ e ∈ q.predicate, c.TellsExpr d o o' r sign e)
    (groupBy : ∀ e ∈ q.groupBy, c.TellsExpr d o o' r sign e)
    (having : ∀ e ∈ q.having, c.TellsExpr d o o' r sign e)
    (orderings : ∀ t ∈ q.orderings, c.TellsExpr d o o' r sign t.expr)
    (limit : ∀ e ∈ q.limit, c.TellsExpr d o o' r sign e)
    (offset : ∀ e ∈ q.offset, c.TellsExpr d o o' r sign e) : c.TellsSelect d o o' r sign q := by
  intro q' h
  rw [q.revise_eq, q'.revise_eq] at h
  injection h with distinct projected drawn joined filtered grouped kept ordered limited skipped
  rw [q.tokens_eq, q'.tokens_eq]
  refine .assemble hd distinct (.map (fun p hp => tells_projection (projections p hp)) projected)
    (.map sources drawn) (.map (fun j hj => tells_join (joins j hj).1 (joins j hj).2) joined)
    (.map predicate filtered) (.map groupBy grouped) (.map having kept)
    (.map (fun t ht => tells_sortTerm (orderings t ht)) ordered) (.map limit limited)
    (.map offset skipped) ?_
  intro projections sources joins predicate groupBy having orderings limit offset
  rw [q.revise_eq, q'.revise_eq, distinct, projections, sources, joins, predicate, groupBy, having,
    orderings, limit, offset]

theorem tells_table (name : String) (schema aliasName : Option String) :
    c.TellsSource d o o' r sign (.table name schema aliasName) := by
  intro s' h
  cases s' with
  | table name' schema' aliasName' =>
    obtain ⟨rfl, rfl, rfl⟩ := Source.table.inj h
    have written : c.Compares True (qualified (givenName schema) (.name name)) _ :=
      .qualified _ rfl trivial
    cases shown : givenName aliasName with
    | none =>
      simp only [Source.tokens, shown, List.append_nil]
      exact written
    | some aliasName =>
      simp only [Source.tokens, shown]
      exact (written.append (.aliased d aliasName (.fixed rfl trivial))).mono And.left
  | _ => cases eq_of_revise Source.ctorIdx_revise h

theorem tells_tableFunction {call : TableFunction}
    (each : ∀ e ∈ call.arguments, c.TellsExpr d o o' r sign e) :
    c.TellsSource d o o' r sign (.function call) := by
  intro s' h
  cases s' with
  | function call' =>
    rw [call.revise_eq, call'.revise_eq] at h
    injection h with h
    injection h with name schema isBuiltIn arguments aliasName
    have head := Compares.functionName (c := c) d call.isBuiltIn call.schema call.name
    rw [call.tokens_eq, call'.tokens_eq, ← name, ← schema, ← isBuiltIn, ← aliasName]
    refine ((head.append (ComparesEach.map each arguments).listed.enclosed).aliased d _).mono ?_
    rintro ⟨-, fine⟩
    rw [call.revise_eq, call'.revise_eq, name, schema, isBuiltIn, aliasName, fine]
  | _ => cases eq_of_revise Source.ctorIdx_revise h

theorem tells_set {operation : SetOperation} (first : c.TellsSelect d o o' r sign operation.left)
    (second : c.TellsSelect d o o' r sign operation.right) :
    c.TellsSource d o o' r sign (.set operation) := by
  intro s' h
  cases s' with
  | set operation' =>
    rw [operation.revise_eq, operation'.revise_eq] at h
    injection h with h
    injection h with operator distinct lefts rights aliasName
    have left := (first _ lefts).operandTokens d operation.left.isPaged
    have right := (second _ rights).operandTokens d operation.right.isPaged
    rw [operation.tokens_eq, operation'.tokens_eq, ← operator, ← distinct, ← aliasName,
      ← eq_of_revise Select.isPaged_revise lefts, ← eq_of_revise Select.isPaged_revise rights]
    refine ((((left.before (by simp)).append right).enclosed).aliased d _).mono ?_
    rintro ⟨left, right⟩
    rw [operation.revise_eq, operation'.revise_eq, operator, distinct, aliasName, left, right]
  | _ => cases eq_of_revise Source.ctorIdx_revise h

/-! ### The whole tree -/

/-- A node without faults tells what its parts tell. -/
theorem tells_step (hd : d.BuiltIn) (fits : c.Fits d o o' r sign) :
    TreeStep (fun e => e.faults d o = [] → c.TellsExpr d o o' r sign e)
      (fun q => q.faults d o = [] → c.TellsSelect d o o' r sign q)
      (fun s => s.faults d o = [] → c.TellsSource d o o' r sign s) where
  column := by
    intro k _ e' h
    cases e' with
    | column k' =>
      have same : (Expr.column k).revise (r.finer sign) = (Expr.column k').revise (r.finer sign) := h
      injection h with h
      injection h with table name
      rw [Expr.tokens, Expr.tokens, table, name]
      exact .qualified _ rfl same
    | _ => cases eq_of_revise Expr.ctorIdx_revise h
  literal := by
    intro l _ e' h
    cases e' with
    | literal l' => exact .single (fits.literal l l' (Expr.literal.inj h)) h
    | _ => cases eq_of_revise Expr.ctorIdx_revise h
  parameter := by
    intro p _ e' h
    cases e' with
    | parameter p' => exact .single (fits.parameter p p' (Expr.parameter.inj h)) h
    | _ => cases eq_of_revise Expr.ctorIdx_revise h
  unary op operand type ih none := tells_unary fits (ih none)
  binary left op right type ihl ihr none := by
    rw [Expr.faults, List.append_eq_nil_iff] at none
    exact tells_binary (ihl none.1) (ihr none.2)
  function call ih none := by
    rw [call.faults_eq, List.append_eq_nil_iff, List.flatMap_eq_nil_iff] at none
    exact tells_function (arguments_of_niladic none.1) fun e he => ih e he (none.2 e he)
  subquery := by
    intro q ih none e' h
    cases e' with
    | subquery q' =>
      exact ((ih none _ (Expr.subquery.inj h)).enclosed).mono (congrArg Expr.subquery)
    | _ => cases eq_of_revise Expr.ctorIdx_revise h
  exist := by
    intro q negated ih none e' h
    cases e' with
    | «exists» q' negated' =>
      obtain ⟨block, rfl⟩ := Expr.exists.inj h
      have lead : contents (if negated then [Token.word "NOT", .space] else []) = [] := by
        cases negated <;> rfl
      refine Compares.behind lead (.cons rfl (.cons rfl ?_))
      exact ((ih none _ block).enclosed).mono fun fine => congrArg (Expr.exists · negated) fine
    | _ => cases eq_of_revise Expr.ctorIdx_revise h
  inList item values negated ihi ihv none := by
    simp only [Expr.faults, Expr.faultsEach_eq, List.append_eq_nil_iff,
      List.flatMap_eq_nil_iff] at none
    exact tells_inList (ihi none.1.1) fun e he => ihv e he (none.2 e he)
  inSelect item q negated ihi ihq none := by
    rw [Expr.faults, List.append_eq_nil_iff] at none
    exact tells_inSelect (ihi none.1) (ihq none.2)
  like item pattern escape negated ihi ihp ihe none := by
    simp only [Expr.like_faults, List.append_eq_nil_iff, List.flatMap_eq_nil_iff] at none
    exact tells_like (ihi none.1.1) (ihp none.1.2) fun e he =>
      ihe e he (none.2 e (Option.mem_toList.2 he))
  case operand whens otherwise type iho ihw ihe none := by
    simp only [Expr.case_faults, List.append_eq_nil_iff, List.flatMap_eq_nil_iff] at none
    obtain ⟨⟨⟨-, first⟩, arms⟩, last⟩ := none
    exact tells_case (fun e he => iho e he (first e (Option.mem_toList.2 he)))
      (fun w hw => ⟨(ihw w hw).1 (arms w hw).1, (ihw w hw).2 (arms w hw).2⟩)
      fun e he => ihe e he (last e (Option.mem_toList.2 he))
  fragment := by
    intro text _ e' h
    cases e' with
    | fragment text' =>
      obtain rfl := Expr.fragment.inj h
      exact .single (c.unbound _ rfl) rfl
    | _ => cases eq_of_revise Expr.ctorIdx_revise h
  block q ihp ihs ihj ihw ihg ihh iho ihl ihk none := by
    simp only [Select.faults_eq, List.append_eq_nil_iff, List.flatMap_eq_nil_iff] at none
    obtain ⟨⟨⟨⟨⟨⟨⟨⟨⟨⟨⟨⟨-, -⟩, front⟩, fp⟩, -⟩, fs⟩, fj⟩, fw⟩, fg⟩, fh⟩, fo⟩, -⟩, back⟩ := none
    obtain ⟨noLimit, noOffset⟩ := Dialect.parts_eq_nil hd front back
    have joins : ∀ j ∈ q.joins, c.TellsSource d o o' r sign j.source ∧
        ∀ e ∈ j.predicate, c.TellsExpr d o o' r sign e := by
      intro j hj
      have none := fj j hj
      simp only [Join.faults, List.append_eq_nil_iff, List.flatMap_eq_nil_iff] at none
      exact ⟨(ihj j hj).1 none.1.2, fun e he =>
        (ihj j hj).2 e he (none.2 e (Option.mem_toList.2 he))⟩
    exact tells_block hd (fun p hp => ihp p hp (fp p hp)) (fun s hs => ihs s hs (fs s hs)) joins
      (fun e he => ihw e he (fw e (Option.mem_toList.2 he))) (fun e he => ihg e he (fg e he))
      (fun e he => ihh e he (fh e (Option.mem_toList.2 he))) (fun t ht => iho t ht (fo t ht))
      (fun e he => ihl e he (noLimit _ (Option.mem_map_of_mem _ he)))
      fun e he => ihk e he (noOffset _ (Option.mem_map_of_mem _ he))
  table name schema aliasName _ := tells_table name schema aliasName
  derived := by
    intro q aliasName ih none s' h
    cases s' with
    | derived q' aliasName' =>
      rw [Source.faults, List.append_eq_nil_iff] at none
      obtain ⟨blocks, rfl⟩ := Source.derived.inj h
      exact ((ih none.2 _ blocks).enclosed.aliased d aliasName).mono fun fine =>
        congrArg (Source.derived · aliasName) fine
    | _ => cases eq_of_revise Source.ctorIdx_revise h
  tableFunction call ih none := by
    rw [call.faults_eq, List.append_eq_nil_iff, List.flatMap_eq_nil_iff] at none
    exact tells_tableFunction fun e he => ih e he (none.2 e he)
  set operation ihl ihr none := by
    rw [operation.faults_eq, List.append_eq_nil_iff, List.append_eq_nil_iff] at none
    exact tells_set (ihl none.1.2) (ihr none.2)

theorem Select.compares (hd : d.BuiltIn) (fits : c.Fits d o o' r sign) {q q' : Select}
    (none : q.faults d o = []) (h : q.revise r = q'.revise r) :
    c.Compares (q.revise (r.finer sign) = q'.revise (r.finer sign)) (q.tokens d o)
      (q'.tokens d o') :=
  (tells_step hd fits).ofSelect q none q' h

end Trees

end SelectCompiler
