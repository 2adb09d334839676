import SelectCompiler.Proofs.Drafts.Trees

/-!
Drafts agree with tokens. Main statement: a node that is written into a draft adds the tokens of its
written form, or is refused for its first fault.
-/

namespace SelectCompiler

open Drafting

variable {d : Dialect} {o : Options}

/-! ### What is to be shown of a node -/

abbrev Expr.Drafts (d : Dialect) (o : Options) (e : Expr) : Prop :=
  (e.draft d o).Adds d (e.faults d o) (e.tokens d o)

abbrev Select.Drafts (d : Dialect) (o : Options) (q : Select) : Prop :=
  (q.draft d o).Adds d (q.faults d o) (q.tokens d o)

abbrev Source.Drafts (d : Dialect) (o : Options) (s : Source) : Prop :=
  (s.draft d o).Adds d (s.faults d o) (s.tokens d o)

abbrev Join.Drafts (d : Dialect) (o : Options) (j : Join) : Prop :=
  (j.draft d o).Adds d (j.faults d o) (j.tokens d o)

namespace Drafting.Adds

/-! ### The parts of a block -/

section Paging

variable {α : Type} {f : α → Drafting} {g : α → List Fault} {k : α → List Token}
  {limit offset : Option α}

theorem fetched (lead which : String) (words : " " ++ " ".intercalate ["FETCH", which] ++ " " = lead)
    (h : ∀ x ∈ limit, (f x).Adds d (g x) (k x)) :
    Adds d (PagingForm.putFetched lead (limit.map f)) (limit.toList.flatMap g)
      (PagingForm.tokens.fetched which (limit.map k)) := by
  subst words
  cases limit with
  | none => exact .nothing
  | some l =>
    have rows : Adds d (Drafting.put " ROWS ONLY") [] (.space :: Token.words ["ROWS", "ONLY"]) :=
      put rfl fun _ => rfl
    exact ((clause ["FETCH", which]).andThen ((h l rfl).andThen rows)).congr (by simp)
      (by simp [PagingForm.tokens.fetched])

theorem paging (form : PagingForm) (hl : ∀ x ∈ limit, (f x).Adds d (g x) (k x))
    (hk : ∀ x ∈ offset, (f x).Adds d (g x) (k x)) :
    Adds d (form.put (limit.map f) (offset.map f))
      (form.inOrder (limit.map g) (offset.map g)).flatten
      (form.tokens (limit.map k) (offset.map k)) := by
  have offsetClause := optionalClause ["OFFSET"] " OFFSET " rfl hk
  cases form with
  | offsetLimit =>
    refine (offsetClause.andThen (optionalClause ["LIMIT"] " LIMIT " rfl hl)).congr ?_ rfl
    simp [PagingForm.inOrder, Option.toList_map, List.flatMap]
  | limitOffset allRows =>
    have rows : Adds d ((limit.map f).getD (Drafting.put allRows)) (limit.toList.flatMap g)
        ((limit.map k).getD [.constant (.bare allRows)]) := by
      cases limit with
      | none => exact token (.constant (.bare allRows)) rfl
      | some l => simpa using hl l rfl
    refine ((clause ["LIMIT"]).andThen (rows.andThen offsetClause)).congr ?_ ?_
    · simp [PagingForm.inOrder, Option.toList_map, List.flatMap]
    · simp [PagingForm.tokens]
  | fetch =>
    cases offset with
    | none =>
      refine (fetched " FETCH FIRST " "FIRST" rfl hl).congr ?_ rfl
      simp [PagingForm.inOrder, Option.toList_map, List.flatMap]
    | some x =>
      have rows : Adds d (Drafting.put " ROWS") [] [.space, .word "ROWS"] := put rfl fun _ => rfl
      have next := fetched " FETCH NEXT " "NEXT" rfl hl
      refine ((clause ["OFFSET"]).andThen ((hk x rfl).andThen (rows.andThen next))).congr ?_ ?_
      · simp [PagingForm.inOrder, Option.toList_map, List.flatMap]
      · simp [PagingForm.tokens]

theorem leading (hd : d.BuiltIn) (offset : Option α) (h : ∀ x ∈ limit, (f x).Adds d (g x) (k x)) :
    Adds d (d.putLeading (limit.map f) (offset.map f))
      (d.leadingParts (limit.map g) (offset.map g))
      (d.frontTokens (limit.map k) (offset.map k)) := by
  cases offset with
  | some x => cases limit <;> exact nothing
  | none =>
    cases limit with
    | none => exact nothing
    | some l =>
      -- A limit alone leads on SQL Server only, where the form to write it is known.
      cases hd with
      | sqlServer schema =>
        have opening : Adds (.sqlServer schema) (Drafting.put "TOP(") []
            [.word "TOP", .symbol "("] := put rfl fun _ => rfl
        have closing : Adds (.sqlServer schema) (Drafting.put ") ") [] [.symbol ")", .space] :=
          put rfl fun _ => rfl
        exact (opening.andThen ((h l rfl).andThen closing)).congr (List.append_nil _)
          (List.append_assoc ..).symm
      | _ => exact nothing

theorem trailing (hl : ∀ x ∈ limit, (f x).Adds d (g x) (k x))
    (hk : ∀ x ∈ offset, (f x).Adds d (g x) (k x)) :
    Adds d (d.putTrailing (limit.map f) (offset.map f))
      (d.trailingParts (limit.map g) (offset.map g))
      (d.backTokens (limit.map k) (offset.map k)) := by
  have last := paging d.paging hl hk
  unfold Dialect.putTrailing Dialect.trailingParts Dialect.backTokens Dialect.pagingPlan
  cases offset with
  | some x => cases limit <;> exact last
  | none =>
    cases limit with
    | none => exact nothing
    | some l =>
      cases d.limitPlace with
      | trailing => exact last
      | leading form => exact nothing

end Paging

theorem projectionAlias (e : Expr) (aliasName : String) :
    Adds d (d.putProjectionAlias e aliasName) [] (projectionAlias e aliasName) := by
  have named : Adds d (do Drafting.put " AS "; d.putName aliasName) []
      (Token.clause ["AS"] ++ [Token.name aliasName]) := (clause ["AS"]).andThen (name aliasName)
  unfold Dialect.putProjectionAlias
  by_cases unnamed : aliasName = ""
  · subst unnamed
    cases e <;> exact nothing
  · have given : (aliasName == "") = false := by simpa using unnamed
    cases e with
    | column c =>
      cases own : c.name == aliasName with
      | false => simpa [SelectCompiler.projectionAlias, bne, given, own] using named
      | true => simpa [SelectCompiler.projectionAlias, bne, given, own] using nothing
    | _ => simpa [SelectCompiler.projectionAlias, bne, given] using named

theorem projections {ps : List Projection} (h : ∀ p ∈ ps, p.expr.Drafts d o) :
    Adds d (putProjections (ps.map (Projection.draft d o))) (ps.flatMap (·.expr.faults d o))
      (Dialect.projectionTokens (ps.map fun p =>
        p.expr.tokens d o ++ SelectCompiler.projectionAlias p.expr p.aliasName)) := by
  have named : ∀ p ∈ ps, (p.draft d o).Adds d (p.expr.faults d o)
      (p.expr.tokens d o ++ SelectCompiler.projectionAlias p.expr p.aliasName) := by
    intro p hp
    exact ((h p hp).andThen (projectionAlias p.expr p.aliasName)).congr (List.append_nil _) rfl
  cases ps with
  | nil => exact token (.constant (.bare "1")) rfl
  | cons p ps => exact listed named

theorem sources {ss : List Source} (isJoined : Bool) (h : ∀ s ∈ ss, s.Drafts d o) :
    Adds d (d.putSources (ss.map (Source.draft d o)) isJoined)
      ((if ss.isEmpty && isJoined then [Fault.joinWithoutSource] else []) ++
        ss.flatMap (Source.faults d o))
      (d.sourceTokens (ss.map (Source.tokens d o))) := by
  cases ss with
  | cons s ss => exact (clause ["FROM"]).andThen (listed h)
  | nil =>
    cases isJoined with
    -- refused before any text, so that nothing is said of the tokens
    | true => exact fun c => rfl
    | false =>
      change Adds d (Drafting.optionalClause " FROM " (d.emptySource.map Drafting.put)) []
        (Token.optionalClause ["FROM"] (d.emptySource.map ([.word ·])))
      have given := optionalClause (g := fun _ => []) ["FROM"] " FROM " rfl
        fun source (_ : source ∈ d.emptySource) => token (d := d) (.word source) rfl
      exact given.congr (by simp) rfl

theorem orderings (hd : d.BuiltIn) {ts : List SortTerm} (hasOffset : Bool)
    (h : ∀ t ∈ ts, t.expr.Drafts d o) :
    Adds d (d.putOrderings (ts.map (SortTerm.draft d o)) hasOffset)
      (ts.flatMap (·.expr.faults d o))
      (d.orderingTokens (ts.map fun t =>
        t.expr.tokens d o ++ if t.ascending then [] else [Token.space, .word "DESC"])
        hasOffset) := by
  have terms : ∀ t ∈ ts, (t.draft d o).Adds d (t.expr.faults d o)
      (t.expr.tokens d o ++ if t.ascending then [] else [Token.space, .word "DESC"]) := by
    intro t ht
    have direction : Adds d (Drafting.put (if t.ascending then "" else " DESC")) []
        (if t.ascending then [] else [Token.space, .word "DESC"]) := by
      cases t.ascending <;> exact put rfl fun _ => rfl
    exact ((h t ht).andThen direction).congr (List.append_nil _) rfl
  cases ts with
  | cons t ts => exact (clause ["ORDER", "BY"]).andThen (listed terms)
  | nil =>
    cases hasOffset with
    | false => exact nothing
    | true =>
      -- Only SQL Server has an ordering of its own for an offset without one.
      cases hd with
      | sqlServer schema => exact (clause ["ORDER", "BY"]).andThen (put rfl fun _ => rfl)
      | _ => exact nothing

theorem operand {w : Drafting} {faults : List Fault} {ts : List Token} (paged : Bool)
    (h : w.Adds d faults ts) : Adds d (d.putOperand paged w) faults (d.operandTokens paged ts) := by
  have lead : Adds d (Drafting.put (if d.operandParentheses then "(" else "SELECT * FROM (")) []
      d.operandLead := by
    unfold Dialect.operandLead
    cases d.operandParentheses <;> exact put rfl fun _ => rfl
  cases paged with
  | false => exact h
  | true => exact (lead.andThen (h.andThen closing)).congr (by simp) (by simp [Dialect.operandTokens])

/-! ### Nodes out of their parts -/

theorem literal (l : Literal) : (Expr.literal l).Drafts d o := by
  have written := token (d := d) (.constant (d.constant l.value l.type)) rfl
  simp only [Expr.Drafts, Expr.draft, Expr.faults, Expr.tokens, Dialect.literalToken, literalFaults]
  cases o.bindLiterals with
  | true => exact bindNext _
  | false => exact ((refuse l.fault?.toList).andThen written).congr (List.append_nil _) rfl

theorem unary (op : UnaryOp) {operand : Expr} (type : SqlType) (h : operand.Drafts d o) :
    (Expr.unary op operand type).Drafts d o := by
  cases op with
  | not =>
    have lead : Adds d (Drafting.put "NOT ") [] [.word "NOT", .space] := put rfl fun _ => rfl
    exact lead.andThen (h.enclosedIf _)
  | negate =>
    have lead : Adds d (Drafting.put "-") [] [.symbol "-"] := token (.symbol "-") rfl
    exact lead.andThen (h.enclosedIf _)
  | isNull =>
    have test : Adds d (Drafting.put " IS NULL") [] (.space :: Token.words ["IS", "NULL"]) :=
      put rfl fun _ => rfl
    exact ((h.enclosedIf _).andThen test).congr (List.append_nil _) rfl
  | isNotNull =>
    have test : Adds d (Drafting.put " IS NOT NULL") []
        (.space :: Token.words ["IS", "NOT", "NULL"]) := put rfl fun _ => rfl
    exact ((h.enclosedIf _).andThen test).congr (List.append_nil _) rfl
  | cast target =>
    have lead : Adds d (Drafting.put "CAST(") [] [.word "CAST", .symbol "("] := put rfl fun _ => rfl
    have written : Adds d (Drafting.put (d.typeName target)) [] [d.typeToken target] := by
      cases target with
      | custom name => exact token (.verbatim name) rfl
      | _ => exact token (.word _) rfl
    refine (lead.andThen (h.andThen ((clause ["AS"]).andThen (written.andThen closing)))).congr
      (by simp [Expr.faults]) ?_
    simp [Expr.tokens, Token.enclosed]

theorem binary (op : BinaryOp) {left right : Expr} (type : SqlType) (hl : left.Drafts d o)
    (hr : right.Drafts d o) : (Expr.binary left op right type).Drafts d o := by
  have lead : Adds d (Drafting.put "CONCAT(") [] [.word "CONCAT", .symbol "("] := put rfl fun _ => rfl
  have operator : Adds d (Drafting.put (d.spelling op)) [] [d.operatorToken op] := by
    cases op with
    | and => exact token (.word "AND") rfl
    | or => exact token (.word "OR") rfl
    | _ => exact token (.symbol (d.spelling _)) rfl
  simp only [Expr.Drafts, Expr.draft, Expr.faults, Expr.tokens, Dialect.binaryTokens]
  split
  · exact (lead.andThen (hl.andThen (comma.andThen (hr.andThen closing)))).congr (by simp)
      (by simp [Token.enclosed, Token.listed])
  · exact ((hl.enclosedIf _).andThen (space.andThen (operator.andThen (space.andThen
      (hr.enclosedIf _))))).congr (by simp) (by simp)

theorem call {call : FunctionCall} (h : ∀ e ∈ call.arguments, e.Drafts d o) :
    (Expr.function call).Drafts d o := by
  rw [Expr.Drafts, call.draft_eq, call.faults_eq, call.tokens_eq]
  refine refusing _ fun none => ?_
  have named := function (d := d) call.schema call.isBuiltIn call.name
  cases niladic : call.isNiladic with
  | false => exact named.andThen (listed h).enclosed
  | true =>
    -- Arguments would not be written, but a call that passes its check has none.
    rw [(FunctionCall.callFaults_eq_nil_iff.1 none).niladic niladic]
    exact named.andThen nothing

theorem exist {q : Select} (negated : Bool) (h : q.Drafts d o) :
    (Expr.exists q negated).Drafts d o := by
  have lead : Adds d (Drafting.put (if negated then "NOT EXISTS " else "EXISTS ")) []
      ((if negated then [Token.word "NOT", .space] else []) ++ [Token.word "EXISTS", .space]) := by
    cases negated <;> exact put rfl fun _ => rfl
  exact (lead.andThen h.enclosed).congr rfl (by simp [Expr.tokens])

theorem testWords (negated : Bool) {word plain negative : String}
    (hp : " " ++ " ".intercalate [word] ++ " " = plain)
    (hn : " " ++ " ".intercalate ["NOT", word] ++ " " = negative) :
    Adds d (Drafting.put (if negated then negative else plain)) [] (testWords negated word) := by
  subst hp hn
  cases negated with
  | false => exact clause [word]
  | true => exact clause ["NOT", word]

theorem inList {item : Expr} {values : List Expr} (negated : Bool) (hi : item.Drafts d o)
    (hv : ∀ e ∈ values, e.Drafts d o) : (Expr.inList item values negated).Drafts d o := by
  have words : Adds d (Drafting.put (if negated then " NOT IN " else " IN ")) []
      (SelectCompiler.testWords negated "IN") := testWords negated rfl rfl
  simp only [Expr.Drafts, Expr.draft, Expr.faults, Expr.tokens, Expr.draftEach_eq,
    Expr.faultsEach_eq, Expr.tokensEach_eq]
  exact ((hi.enclosedIf _).andThen (words.andThen ((refuse _).andThen (listed hv).enclosed))).congr
    (by simp) (by simp)

theorem inSelect {item : Expr} {q : Select} (negated : Bool) (hi : item.Drafts d o)
    (hq : q.Drafts d o) : (Expr.inSelect item q negated).Drafts d o := by
  have words : Adds d (Drafting.put (if negated then " NOT IN " else " IN ")) []
      (SelectCompiler.testWords negated "IN") := testWords negated rfl rfl
  exact ((hi.enclosedIf _).andThen (words.andThen hq.enclosed)).congr rfl
    (List.append_assoc ..).symm

theorem like {item pattern : Expr} {escape : Option Expr} (negated : Bool) (hi : item.Drafts d o)
    (hp : pattern.Drafts d o) (he : ∀ e ∈ escape, e.Drafts d o) :
    (Expr.like item pattern escape negated).Drafts d o := by
  have words : Adds d (Drafting.put (if negated then " NOT LIKE " else " LIKE ")) []
      (SelectCompiler.testWords negated "LIKE") := testWords negated rfl rfl
  have escaped := optionalClause ["ESCAPE"] " ESCAPE " rfl he
  rw [Expr.Drafts, Expr.like_draft, Expr.like_faults, Expr.like_tokens]
  exact ((hi.enclosedIf _).andThen (words.andThen ((hp.enclosedIf _).andThen escaped))).congr
    (by simp) (by simp)

theorem arm {w : Expr × Expr} (hc : w.1.Drafts d o) (hr : w.2.Drafts d o) :
    (Expr.armDraft d o w).Adds d (w.1.faults d o ++ w.2.faults d o) (Expr.armTokens d o w) :=
  ((clause ["WHEN"]).andThen (hc.andThen ((clause ["THEN"]).andThen hr))).congr (by simp)
    (by simp [Expr.armTokens, Token.arm])

theorem case {operand otherwise : Option Expr} {whens : List (Expr × Expr)} (type : SqlType)
    (ho : ∀ e ∈ operand, e.Drafts d o) (hw : ∀ w ∈ whens, w.1.Drafts d o ∧ w.2.Drafts d o)
    (he : ∀ e ∈ otherwise, e.Drafts d o) : (Expr.case operand whens otherwise type).Drafts d o := by
  have lead : Adds d (Drafting.put "CASE") [] [.word "CASE"] := token (.word "CASE") rfl
  have last : Adds d (Drafting.put " END") [] [.space, .word "END"] := put rfl fun _ => rfl
  have compared : Adds d (Drafting.optionalClause " " (operand.map (Expr.draft d o)))
      (operand.toList.flatMap (Expr.faults d o))
      (operand.toList.flatMap fun e => .space :: e.tokens d o) := by
    cases operand with
    | none => exact nothing
    | some e => exact (space.andThen (ho e rfl)).congr (by simp) (by simp)
  have arms := inTurn fun w mem => arm (hw w mem).1 (hw w mem).2
  have default := optionalClause ["ELSE"] " ELSE " rfl he
  rw [Expr.Drafts, Expr.case_draft, Expr.case_faults, Expr.case_tokens]
  exact ((refuse _).andThen (lead.andThen (compared.andThen (arms.andThen
    (default.andThen last))))).congr (by simp) (by simp)

theorem table (name : String) (schema aliasName : Option String) :
    (Source.table name schema aliasName).Drafts d o := by
  have named := qualified (givenName schema) (Adds.name (d := d) name)
  simp only [Source.Drafts, Source.draft, Source.faults, Source.tokens]
  cases givenName aliasName with
  | none => exact named.andThen nothing
  | some aliasName => exact named.andThen (aliased aliasName)

theorem derived {q : Select} (aliasName : String) (h : q.Drafts d o) :
    (Source.derived q aliasName).Drafts d o :=
  ((refuse _).andThen (h.enclosed.andThen (aliased aliasName))).congr (by simp [Source.faults])
    (by simp [Source.tokens, Dialect.aliased])

theorem tableFunction {call : TableFunction} (h : ∀ e ∈ call.arguments, e.Drafts d o) :
    (Source.function call).Drafts d o := by
  have named := function (d := d) call.schema call.isBuiltIn call.name
  rw [Source.Drafts, call.draft_eq, call.faults_eq, call.tokens_eq]
  exact ((refuse _).andThen ((refuse _).andThen (named.andThen ((listed h).enclosed.andThen
    (aliased call.aliasName))))).congr (by simp) (by simp [Dialect.aliased])

theorem set {operation : SetOperation} (hl : operation.left.Drafts d o)
    (hr : operation.right.Drafts d o) : (Source.set operation).Drafts d o := by
  rw [Source.Drafts, operation.faults_eq, operation.tokens_eq]
  obtain ⟨operator, distinct, left, right, aliasName⟩ := operation
  have word : Adds d (Drafting.put (d.setWord operator)) [] [.word (d.setWord operator)] :=
    token (.word _) rfl
  have variant : Adds d (Drafting.put (if distinct then " " else " ALL ")) []
      (if distinct then [Token.space] else Token.clause ["ALL"]) := by
    cases distinct with
    | true => exact space
    | false => exact clause ["ALL"]
  have operands := (operand left.isPaged hl).andThen (space.andThen (word.andThen
    (variant.andThen (operand right.isPaged hr))))
  refine ((refuse _).andThen ((refuse _).andThen (operands.enclosed.andThen
    (aliased aliasName)))).congr (by simp) ?_
  cases distinct <;> simp [Dialect.aliased, Token.clause, Token.words]

theorem join {j : Join} (hs : j.source.Drafts d o) (hp : ∀ e ∈ j.predicate, e.Drafts d o) :
    j.Drafts d o := by
  have condition := optionalClause ["ON"] " ON " rfl hp
  exact ((refuse _).andThen ((clause (joinWords j.kind)).andThen (hs.andThen condition))).congr
    (by simp [Join.faults]) (by simp [Join.tokens])

theorem block (hd : d.BuiltIn) {q : Select} (hp : ∀ p ∈ q.projections, p.expr.Drafts d o)
    (hs : ∀ s ∈ q.sources, s.Drafts d o) (hj : ∀ j ∈ q.joins, j.Drafts d o)
    (hw : ∀ e ∈ q.predicate, e.Drafts d o) (hg : ∀ e ∈ q.groupBy, e.Drafts d o)
    (hh : ∀ e ∈ q.having, e.Drafts d o) (ho : ∀ t ∈ q.orderings, t.expr.Drafts d o)
    (hl : ∀ e ∈ q.limit, e.Drafts d o) (hk : ∀ e ∈ q.offset, e.Drafts d o) : q.Drafts d o := by
  have select : Adds d (Drafting.put "SELECT ") [] [.word "SELECT", .space] := put rfl fun _ => rfl
  have distinct : Adds d (Drafting.put (if q.distinct then "DISTINCT " else "")) []
      (Dialect.distinctTokens q.distinct) := by
    cases q.distinct <;> exact put rfl fun _ => rfl
  have front := leading hd q.offset hl
  have items := projections hp
  have drawn := sources (!q.joins.isEmpty) hs
  have joins := inTurn hj
  have predicate := optionalClause ["WHERE"] " WHERE " rfl hw
  have groups := listClause ["GROUP", "BY"] " GROUP BY " rfl hg
  have having := optionalClause ["HAVING"] " HAVING " rfl hh
  have terms := orderings hd q.offset.isSome ho
  have back := trailing hl hk
  rw [Select.Drafts, q.draft_eq, q.faults_eq, q.tokens_eq, Dialect.assemble_eq]
  exact ((refuse _).andThen (select.andThen (distinct.andThen ((refuse _).andThen (front.andThen
    (items.andThen (drawn.andThen (joins.andThen (predicate.andThen (groups.andThen
    (having.andThen (terms.andThen ((refuse _).andThen back))))))))))))).congr (by simp)
    (by simp [Select.clauses])

end Drafting.Adds

/-! ### All nodes -/

theorem draft_step (hd : d.BuiltIn) (o : Options) :
    TreeStep (Expr.Drafts d o) (Select.Drafts d o) (Source.Drafts d o) where
  column c := .qualified _ (.name c.name)
  literal l := .literal l
  parameter _ := .bindNext _
  unary op _ type h := .unary op type h
  binary _ op _ type hl hr := .binary op type hl hr
  function _ h := .call h
  subquery _ h := h.enclosed
  exist _ negated h := .exist negated h
  inList _ _ negated hi hv := .inList negated hi hv
  inSelect _ _ negated hi hq := .inSelect negated hi hq
  like _ _ _ negated hi hp he := .like negated hi hp he
  case _ _ _ type ho hw he := .case type ho hw he
  fragment text := .token (.verbatim text) rfl
  block _ hp hs hj hw hg hh ho hl hk :=
    .block hd hp hs (fun j mem => .join (hj j mem).1 (hj j mem).2) hw hg hh ho hl hk
  table name schema aliasName := .table name schema aliasName
  derived _ aliasName h := .derived aliasName h
  tableFunction _ h := .tableFunction h
  set _ hl hr := .set hl hr

namespace Node

def draft (d : Dialect) (o : Options) : Node → Drafting
  | expr e => e.draft d o
  | block q => q.draft d o
  | source s => s.draft d o
  | join j => j.draft d o

theorem draft_adds (hd : d.BuiltIn) (o : Options) (n : Node) :
    (n.draft d o).Adds d (n.faults d o) (n.tokens d o) := by
  have step := draft_step hd o
  cases n with
  | expr e => exact step.ofExpr e
  | block q => exact step.ofSelect q
  | source s => exact step.ofSource s
  | join j => exact .join (step.ofSource j.source) fun e _ => step.ofExpr e

end Node

end SelectCompiler
