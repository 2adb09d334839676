import SelectCompiler.Proofs.Dialects
import SelectCompiler.Proofs.Tokens.Comparison
import SelectCompiler.Proofs.Tokens.LeafContents

/-!
Two query blocks side by side. Main statement: blocks whose parts compare are compared as a whole,
wherever the dialect puts the limit and the offset.
-/

namespace SelectCompiler

open Token (clause words enclosed enclosedIf listed qualified optionalClause listClause contents)

namespace Comparison

variable {c : Comparison} {P Q : Prop} {d : Dialect}

theorem ComparesOption.fetched {a? a?' : Option (List Token)} (which : String)
    (h : c.ComparesOption P a? a?') :
    c.Compares P (PagingForm.tokens.fetched which a?) (PagingForm.tokens.fetched which a?') := by
  cases h with
  | none p => exact .inl ⟨p, .nil⟩
  | some h => exact (h.behind (by simp)).before (by simp)

theorem ComparesOption.pagingTokens {l? l?' k? k?' : Option (List Token)} (form : PagingForm)
    (limit : c.ComparesOption P l? l?') (offset : c.ComparesOption Q k? k?') :
    c.Compares (P ∧ Q) (form.tokens l? k?) (form.tokens l?' k?') := by
  cases form with
  | offsetLimit =>
    exact ((offset.optionalClause ["OFFSET"]).append (limit.optionalClause ["LIMIT"])).mono
      And.symm
  | limitOffset allRows =>
    refine .append ?_ (offset.optionalClause ["OFFSET"])
    cases limit with
    | none p => exact .fixed (by simp) p
    | some h => exact h.behind (by simp)
  | fetch =>
    cases offset with
    | none q => exact (limit.fetched "FIRST").mono fun p => ⟨p, q⟩
    | some h =>
      have start : contents (clause ["OFFSET"]) = [] := by simp
      have rows := ((limit.fetched "NEXT").cons (t := .word "ROWS") rfl).cons (t := .space) rfl
      simpa only [PagingForm.tokens, List.cons_append, List.nil_append] using
        ((h.behind start).append rows).mono And.symm

end Comparison

namespace Dialect

theorem limitPlace_cases {d : Dialect} (hd : d.BuiltIn) :
    d.limitPlace = .trailing ∨ ∃ form : LeadingLimit, d.limitPlace = .leading (some form) ∧
      contents form.before = [] ∧ contents form.after = [] := by
  cases hd with
  | sqlServer schema => exact .inr ⟨_, rfl, rfl, rfl⟩
  | _ => exact .inl rfl

theorem contents_fallbackOrdering {d : Dialect} (hd : d.BuiltIn) :
    ∀ ts ∈ d.fallbackOrdering, contents ts = [] := by
  intro ts hts
  cases hd <;> cases hts
  rfl

end Dialect

namespace Comparison

variable {c : Comparison} {P Q : Prop} {d : Dialect}

/-- A limit and an offset are compared in front of the projections or at the end. -/
theorem ComparesOption.paging (hd : d.BuiltIn) {l? l?' k? k?' : Option (List Token)}
    (limit : c.ComparesOption P l? l?') (offset : c.ComparesOption Q k? k?') :
    ∃ F B : Prop, c.Compares F (d.frontTokens l? k?) (d.frontTokens l?' k?') ∧
      c.Compares B (d.backTokens l? k?) (d.backTokens l?' k?') ∧ (F → B → P ∧ Q) := by
  have nothing : c.Compares True [] [] := .inl ⟨trivial, .nil⟩
  have trailing := limit.pagingTokens d.paging offset
  rcases d.limitPlace_cases hd with place | ⟨form, place, before, after⟩
  · cases limit <;> cases offset <;>
      simp only [Dialect.frontTokens, Dialect.backTokens, Dialect.pagingPlan, place] <;>
      first
        | exact ⟨True, P ∧ Q, nothing, trailing, fun _ b => b⟩
        | exact ⟨True, True, nothing, nothing, fun _ _ => ⟨by assumption, by assumption⟩⟩
  · cases limit with
    | none p =>
      cases offset with
      | none q => exact ⟨True, True, nothing, nothing, fun _ _ => ⟨p, q⟩⟩
      | some h => exact ⟨True, P ∧ Q, nothing, trailing, fun _ b => b⟩
    | some h =>
      cases offset with
      | none q =>
        refine ⟨P, True, ?_, ?_, fun p _ => ⟨p, q⟩⟩
        · simpa only [Dialect.frontTokens, Dialect.pagingPlan, Dialect.leadingTokens, place] using
            (h.behind before).before after
        · simpa only [Dialect.backTokens, Dialect.pagingPlan, place] using nothing
      | some h' => exact ⟨True, P ∧ Q, nothing, trailing, fun _ b => b⟩

theorem ComparesEach.sourceTokens (d : Dialect) {as as' : List (List Token)}
    (h : c.ComparesEach P as as') :
    c.Compares P (d.sourceTokens as) (d.sourceTokens as') := by
  unfold Dialect.sourceTokens
  rw [h.isEmpty]
  split
  · rename_i none
    have none' := h.isEmpty.trans none
    rw [List.isEmpty_iff] at none none'
    subst none none'
    exact .fixed (by cases d.emptySource <;> simp) h.prop
  · exact h.listClause ["FROM"]

theorem ComparesEach.projectionTokens {as as' : List (List Token)} (h : c.ComparesEach P as as') :
    c.Compares P (Dialect.projectionTokens as) (Dialect.projectionTokens as') := by
  cases h with
  | nil p => exact .fixed rfl p
  | cons h hs both => exact (ComparesEach.cons h hs both).listed

theorem ComparesEach.orderingTokens (hd : d.BuiltIn) {as as' : List (List Token)}
    (h : c.ComparesEach P as as') (hasOffset : Bool) :
    c.Compares P (d.orderingTokens as hasOffset) (d.orderingTokens as' hasOffset) := by
  cases h with
  | nil p =>
    refine .fixed ?_ p
    have fallback := Dialect.contents_fallbackOrdering hd
    cases hasOffset with
    | false => rfl
    | true => cases h : d.fallbackOrdering <;> simp_all [Dialect.orderingTokens]
  | cons h hs both => exact (ComparesEach.cons h hs both).listClause ["ORDER", "BY"]

theorem Compares.functionName (d : Dialect) (isBuiltIn : Bool) (schema : Option String)
    (name : String) :
    c.Compares True
      (Token.qualified (d.schemaOf isBuiltIn schema) (Dialect.functionToken isBuiltIn name))
      (Token.qualified (d.schemaOf isBuiltIn schema) (Dialect.functionToken isBuiltIn name)) :=
  .qualified _ (by cases isBuiltIn <;> rfl) trivial

theorem Compares.projectionAlias (e : Expr) (aliasName : String) :
    c.Compares True (projectionAlias e aliasName) (projectionAlias e aliasName) := by
  rw [projectionAlias_eq]
  cases shownAlias e aliasName with
  | none => exact .fixed rfl trivial
  | some a =>
    rw [Option.toList_some, List.flatMap_singleton]
    exact .snoc rfl (.fixed (by simp) trivial)

theorem Compares.assemble (hd : d.BuiltIn) {b b' : Clauses} {P₁ P₂ P₃ P₄ P₅ P₆ P₇ P₈ P₉ R : Prop}
    (distinct : b.distinct = b'.distinct)
    (projections : c.ComparesEach P₁ b.projections b'.projections)
    (sources : c.ComparesEach P₂ b.sources b'.sources) (joins : c.ComparesEach P₃ b.joins b'.joins)
    (predicate : c.ComparesOption P₄ b.predicate b'.predicate)
    (groupBy : c.ComparesEach P₅ b.groupBy b'.groupBy)
    (having : c.ComparesOption P₆ b.having b'.having)
    (orderings : c.ComparesEach P₇ b.orderings b'.orderings)
    (limit : c.ComparesOption P₈ b.limit b'.limit) (offset : c.ComparesOption P₉ b.offset b'.offset)
    (together : P₁ → P₂ → P₃ → P₄ → P₅ → P₆ → P₇ → P₈ → P₉ → R) :
    c.Compares R (d.assemble b) (d.assemble b') := by
  obtain ⟨F, B, front, back, both⟩ := limit.paging hd offset
  have head :
      contents ([Token.word "SELECT", .space] ++ Dialect.distinctTokens b.distinct) = [] := by
    cases b.distinct <;> rfl
  rw [Dialect.assemble_eq, Dialect.assemble_eq, ← distinct, ← offset.isSome]
  have before := (((front.behind head).append projections.projectionTokens).append
    (sources.sourceTokens d)).append joins.flatten
  have after := ((((before.append (predicate.optionalClause ["WHERE"])).append
    (groupBy.listClause ["GROUP", "BY"])).append (having.optionalClause ["HAVING"])).append
    (orderings.orderingTokens hd b.offset.isSome)).append back
  refine after.mono ?_
  rintro ⟨⟨⟨⟨⟨⟨⟨⟨f, p₁⟩, p₂⟩, p₃⟩, p₄⟩, p₅⟩, p₆⟩, p₇⟩, b⟩
  exact together p₁ p₂ p₃ p₄ p₅ p₆ p₇ (both f b).1 (both f b).2

end Comparison

end SelectCompiler
