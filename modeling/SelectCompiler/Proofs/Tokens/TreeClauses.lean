import SelectCompiler.Proofs.Tokens.ClauseWords
import SelectCompiler.Proofs.Tokens.OuterTokens

/-!
The clauses of a block. Main statement: outside of its parentheses a block shows the words of the
clauses that its fields call for, in one order, and nothing that its parts are written with.
-/

namespace SelectCompiler

open Token (Closes clause words enclosed enclosedIf listed qualified optionalClause listClause)

variable {d : Dialect} {o : Options} {raw : String → List String}

/-! ### The words of a block -/

/-- The words of a limit that stands after `SELECT`. -/
def Dialect.leadingWords (d : Dialect) (limit offset : Bool) : List String :=
  if d.name = "sqlserver" ∧ limit ∧ !offset then ["TOP"] else []

/-- The words of the last clause, by the syntax of the five databases. -/
def Dialect.trailingWords (d : Dialect) : (limit offset : Bool) → List String
  | false, false => []
  | true, false =>
    if d.name = "sqlserver" then [] else if d.name = "oracle" then ["FETCH"] else ["LIMIT"]
  | false, true =>
    if d.name = "mysql" ∨ d.name = "sqlite" then ["LIMIT", "OFFSET"] else ["OFFSET"]
  | true, true =>
    if d.name = "postgres" then ["OFFSET", "LIMIT"]
    else if d.name = "mysql" ∨ d.name = "sqlite" then ["LIMIT", "OFFSET"]
    else ["OFFSET", "FETCH"]

/-- The words between the projections and the last clause. -/
def Select.innerWords (d : Dialect) (q : Select) : List String :=
  (if q.sources.isEmpty ∧ d.name ≠ "oracle" then [] else ["FROM"]) ++
  (q.joins.flatMap fun j => joinWords j.kind) ++
  (if q.predicate.isSome then ["WHERE"] else []) ++
  (if q.groupBy.isEmpty then [] else ["GROUP", "BY"]) ++
  (if q.having.isSome then ["HAVING"] else []) ++
  (if q.orderings.isEmpty ∧ ¬(d.name = "sqlserver" ∧ q.offset.isSome) then []
    else ["ORDER", "BY"])

/-- The words of the clauses of a block, in their order. -/
def Select.clauseWords (d : Dialect) (q : Select) : List String :=
  ["SELECT"] ++ (if q.distinct then ["DISTINCT"] else []) ++
  d.leadingWords q.limit.isSome q.offset.isSome ++ q.innerWords d ++
  d.trailingWords q.limit.isSome q.offset.isSome

def Select.withPaging (q : Select) (limit offset : Option Expr) : Select := { q with limit, offset }

theorem Select.withPaging_self (q : Select) : q.withPaging q.limit q.offset = q := by
  cases q
  rfl

/-- A raw text has no keyword of a clause outside of its parentheses. -/
def IsQuiet (raw : String → List String) : Prop := ∀ text, ∀ w ∈ raw text, w ∉ clauseKeywords

/-! ### The parts of a block -/

/-- A limit in front is written like a call of `TOP`. -/
theorem Dialect.frontTokens_sqlServer (schema : String) (limit : List Token) :
    (sqlServer schema).frontTokens (some limit) none =
      [Token.word "TOP"] ++ enclosed limit ++ [Token.space] := by
  simp [frontTokens, pagingPlan, leadingTokens, sqlServer, enclosed]

namespace Writes

theorem keyword {w : String} (h : w ∈ clauseKeywords)
    (alone : w ∉ ["JOIN", "APPLY", "GROUP", "ORDER"]) : Writes raw (Token.words [w]) [w] :=
  words (by simpa using .inl h) (.keyword h alone)

/-- Operands show no clauses. -/
theorem ofOuter (quiet : IsQuiet raw) {ts : List Token} (h : Outer Token.OfOperand ts) :
    Writes raw ts [] where
  closes := h.closes
  shows := by
    have apart : ∀ w ∈ operandWords, w ∉ clauseKeywords := by decide
    refine .quiet fun w hw => ?_
    obtain ⟨item, mem, hw⟩ := List.mem_flatMap.1 hw
    unfold Item.words at hw
    split at hw
    · split at hw
      · exact List.mem_singleton.1 hw ▸ apart _ (h.forall_mem _ mem)
      · cases hw
    · exact quiet _ w hw
    · cases hw

theorem distinctTokens (distinct : Bool) :
    Writes raw (Dialect.distinctTokens distinct) (if distinct then ["DISTINCT"] else []) := by
  cases distinct
  · exact nil
  · exact (keyword (by decide) (by decide)).append space

theorem projectionTokens {projections : List (List Token)}
    (h : ∀ ts ∈ projections, Writes raw ts []) :
    Writes raw (Dialect.projectionTokens projections) [] := by
  unfold Dialect.projectionTokens
  split
  · exact token rfl .nil
  · exact listed h

theorem sourceTokens (hd : d.BuiltIn) {sources : List (List Token)}
    (h : ∀ ts ∈ sources, Writes raw ts []) :
    Writes raw (d.sourceTokens sources)
      (if sources.isEmpty ∧ d.name ≠ "oracle" then [] else ["FROM"]) := by
  have «from» : Writes raw (Token.words ["FROM"]) ["FROM"] := keyword (by decide) (by decide)
  cases sources with
  | nil =>
    cases hd with
    | oracle => exact «from».clause.append (word (by decide))
    | _ => exact nil
  | cons ts tss => simpa [Dialect.sourceTokens] using «from».listClause h

theorem orderingTokens (hd : d.BuiltIn) {orderings : List (List Token)} (hasOffset : Bool)
    (h : ∀ ts ∈ orderings, Writes raw ts []) :
    Writes raw (d.orderingTokens orderings hasOffset)
      (if orderings.isEmpty ∧ ¬(d.name = "sqlserver" ∧ hasOffset) then []
        else ["ORDER", "BY"]) := by
  have order : Writes raw (Token.words ["ORDER", "BY"]) ["ORDER", "BY"] :=
    words (by decide) (.withBy (.inr rfl))
  cases orderings with
  | nil =>
    cases hasOffset with
    | false => simpa [Dialect.orderingTokens, Token.listClause] using nil
    | true =>
      cases hd with
      | sqlServer schema =>
        have inner : Closes [.word "SELECT", .space, .constant (.bare "1")] :=
          (Closes.plain rfl).append (Closes.space.append (.plain rfl))
        exact order.clause.append (enclosed inner)
      | _ => exact nil
  | cons ts tss => simpa [Dialect.orderingTokens] using order.listClause h

theorem fetched {which : String} (hw : which ∉ clauseKeywords) {limit : Option (List Token)}
    (h : ∀ ts ∈ limit, Writes raw ts []) :
    Writes raw (PagingForm.tokens.fetched which limit) (if limit.isSome then ["FETCH"] else []) := by
  cases limit with
  | none => exact nil
  | some l =>
    have lead : Writes raw (Token.clause ["FETCH", which]) ["FETCH"] := by
      have first : Writes raw [.word "FETCH", .space] ["FETCH"] :=
        (keyword (by decide) (by decide)).append space
      have := (space.append first).append ((word hw).silent space)
      simpa [Token.clause, Token.words] using this
    have only : Writes raw (.space :: Token.words ["ROWS", "ONLY"]) [] :=
      space.silent (otherWords (by decide))
    exact (lead.append (h l rfl)).append only

theorem frontTokens (hd : d.BuiltIn) {limit : Option (List Token)}
    (h : ∀ ts ∈ limit, Writes raw ts []) (offset : Option (List Token)) :
    Writes raw (d.frontTokens limit offset) (d.leadingWords limit.isSome offset.isSome) := by
  cases limit with
  | none => cases hd <;> cases offset <;> exact nil
  | some l =>
    cases offset with
    | some k => cases hd <;> exact nil
    | none =>
      cases hd with
      | sqlServer schema =>
        have top : Writes raw [.word "TOP"] ["TOP"] := keyword (by decide) (by decide)
        have call := (top.append (enclosed (h l rfl).closes)).append space
        rw [Dialect.frontTokens_sqlServer]
        exact call
      | _ => exact nil

theorem backTokens (hd : d.BuiltIn) {limit offset : Option (List Token)}
    (hl : ∀ ts ∈ limit, Writes raw ts []) (hk : ∀ ts ∈ offset, Writes raw ts []) :
    Writes raw (d.backTokens limit offset) (d.trailingWords limit.isSome offset.isSome) := by
  have limitWord : Writes raw (Token.words ["LIMIT"]) ["LIMIT"] := keyword (by decide) (by decide)
  have offsetWord : Writes raw (Token.words ["OFFSET"]) ["OFFSET"] :=
    keyword (by decide) (by decide)
  have rows : Writes raw [.space, .word "ROWS"] [] := space.silent (word (by decide))
  have rowCount (text : String) : Writes raw [.constant (.bare text)] [] := token rfl .nil
  cases limit with
  | none =>
    cases offset with
    | none => cases hd <;> exact nil
    | some k =>
      have behind := offsetWord.clause.append (hk k rfl)
      cases hd with
      | postgres => exact behind.append nil
      | mysql => exact (limitWord.clause.append (rowCount _)).append behind
      | sqlite => exact (limitWord.clause.append (rowCount _)).append behind
      | sqlServer schema => exact (behind.append rows)
      | oracle => exact (behind.append rows)
  | some l =>
    have front := limitWord.clause.append (hl l rfl)
    cases offset with
    | none =>
      cases hd with
      | sqlServer schema => exact nil
      | oracle => exact fetched (by decide) hl
      | postgres => exact nil.append front
      | mysql => exact front.append nil
      | sqlite => exact front.append nil
    | some k =>
      have behind := offsetWord.clause.append (hk k rfl)
      have fetch : Writes raw (Token.clause ["OFFSET"] ++ k ++ Token.space :: .word "ROWS" ::
          PagingForm.tokens.fetched "NEXT" (some l)) ["OFFSET", "FETCH"] := by
        simpa using (behind.append rows).append (fetched (by decide) hl)
      cases hd with
      | postgres => exact behind.append front
      | mysql => exact front.append behind
      | sqlite => exact front.append behind
      | sqlServer schema => exact fetch
      | oracle => exact fetch

end Writes

/-! ### Trees -/

theorem writes_option {e? : Option Expr} (h : ∀ e ∈ e?, Writes raw (e.tokens d o) []) :
    ∀ ts ∈ e?.map (Expr.tokens d o), Writes raw ts [] := by
  rintro ts hts
  obtain ⟨e, he, rfl⟩ := Option.map_eq_some_iff.1 hts
  exact h e he

section Block

variable (hd : d.BuiltIn) (o : Options) (quiet : IsQuiet raw) (q : Select)
include hd quiet

theorem writes_expr (e : Expr) : Writes raw (e.tokens d o) [] :=
  .ofOuter quiet ((operand_step hd o).ofExpr e)

theorem writes_inner :
    Writes raw
      (d.sourceTokens (q.clauses d o).sources ++ (q.clauses d o).joins.flatten ++
        optionalClause ["WHERE"] (q.clauses d o).predicate ++
        listClause ["GROUP", "BY"] (q.clauses d o).groupBy ++
        optionalClause ["HAVING"] (q.clauses d o).having ++
        d.orderingTokens (q.clauses d o).orderings (q.clauses d o).offset.isSome)
      (q.innerWords d) := by
  have expr := writes_expr hd o quiet
  have sources := Writes.sourceTokens hd (List.forall_mem_map.2 fun s (_ : s ∈ q.sources) =>
    .ofOuter quiet ((operand_step hd o).ofSource s))
  have joins : Writes raw (q.joins.map (Join.tokens d o)).flatten
      (q.joins.flatMap fun j => joinWords j.kind) := by
    refine .flatten fun j _ => ?_
    have lead : Writes raw (clause (joinWords j.kind)) (joinWords j.kind) :=
      .clause (.words (by cases j.kind <;> decide) (.join j.kind))
    have source := Writes.ofOuter quiet ((operand_step hd o).ofSource j.source)
    have predicate : Writes raw (optionalClause ["ON"] (j.predicate.map (Expr.tokens d o))) [] := by
      have on : ∀ w ∈ ["ON"], w ∉ clauseKeywords := by decide
      simpa using Writes.optionalClause (.otherWords on) (writes_option fun e _ => expr e)
    simpa [Join.tokens] using (lead.append source).append predicate
  have «where» : Writes raw (optionalClause ["WHERE"] (q.predicate.map (Expr.tokens d o))) _ :=
    .optionalClause (.keyword (by decide) (by decide)) (writes_option fun e _ => expr e)
  have group : Writes raw (listClause ["GROUP", "BY"] (q.groupBy.map (Expr.tokens d o))) _ :=
    .listClause (.words (by decide) (.withBy (.inl rfl)))
      (List.forall_mem_map.2 fun e _ => expr e)
  have having : Writes raw (optionalClause ["HAVING"] (q.having.map (Expr.tokens d o))) _ :=
    .optionalClause (.keyword (by decide) (by decide)) (writes_option fun e _ => expr e)
  have orderings := Writes.orderingTokens hd (q.offset.map (Expr.tokens d o)).isSome
    (List.forall_mem_map.2 fun t (_ : t ∈ q.orderings) => by
      have last : Writes raw (if t.ascending then [] else [Token.space, .word "DESC"]) [] := by
        split
        · exact .nil
        · exact Writes.space.silent (.word (by decide))
      exact (expr t.expr).silent last)
  simpa only [Select.clauses, Select.innerWords, Option.isSome_map, List.isEmpty_map] using
    ((((sources.append joins).append «where»).append group).append having).append orderings

/-- Limit and offset are written in front of the other parts of a block and behind them, and nowhere
else. -/
theorem Select.exists_tokens_split :
    ∃ middle, Writes raw middle (q.innerWords d) ∧
      ∀ limit offset : Option Expr, offset.isSome = q.offset.isSome →
        (q.withPaging limit offset).tokens d o =
          [Token.word "SELECT", .space] ++ Dialect.distinctTokens q.distinct ++
            d.frontTokens (limit.map (Expr.tokens d o)) (offset.map (Expr.tokens d o)) ++ middle ++
            d.backTokens (limit.map (Expr.tokens d o)) (offset.map (Expr.tokens d o)) := by
  have projections : Writes raw (Dialect.projectionTokens (q.clauses d o).projections) [] :=
    .projectionTokens <| List.forall_mem_map.2 fun p _ =>
      (writes_expr hd o quiet p.expr).silent (.ofOuter quiet (.projectionAlias p.expr p.aliasName))
  refine ⟨_, projections.append (writes_inner hd o quiet q), fun limit offset same => ?_⟩
  rw [Select.tokens_eq, Dialect.assemble_eq]
  simp only [Select.clauses, withPaging, List.append_assoc, Option.isSome_map, same]

theorem Select.writes_tokens : Writes raw (q.tokens d o) (q.clauseWords d) := by
  obtain ⟨middle, inner, split⟩ := exists_tokens_split hd o quiet q
  have split := split q.limit q.offset rfl
  have select : Writes raw [.word "SELECT", .space] ["SELECT"] :=
    (Writes.keyword (by decide) (by decide)).append .space
  have limit := writes_option fun e (_ : e ∈ q.limit) => writes_expr hd o quiet e
  have offset := writes_option fun e (_ : e ∈ q.offset) => writes_expr hd o quiet e
  rw [q.withPaging_self] at split
  rw [split, clauseWords]
  simpa only [Option.isSome_map] using
    (((select.append (.distinctTokens q.distinct)).append
      (.frontTokens hd limit (q.offset.map (Expr.tokens d o)))).append inner).append
      (.backTokens hd limit offset)

end Block

end SelectCompiler
