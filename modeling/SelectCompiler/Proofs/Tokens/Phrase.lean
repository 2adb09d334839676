import SelectCompiler.Proofs.Tokens.Numbers
import SelectCompiler.Proofs.Tree.Induction
import SelectCompiler.Proofs.Tree.Parts

/-!
The grammar of written tokens: which words and marks a dialect writes, and what may stand next to
what. Names, constants and words never touch each other, and parentheses always close. Main
statement: every tree is written as a phrase of this grammar.
-/

namespace SelectCompiler

open Token (clause words enclosed enclosedIf listed qualified optionalClause listClause)

def keywords : List String :=
  ["SELECT", "DISTINCT", "TOP", "FROM", "AS", "DUAL", "INNER", "LEFT", "CROSS", "OUTER", "JOIN",
    "APPLY", "ON", "WHERE", "GROUP", "BY", "HAVING", "ORDER", "DESC", "LIMIT", "OFFSET", "FETCH",
    "FIRST", "NEXT", "ROWS", "ONLY", "UNION", "INTERSECT", "EXCEPT", "MINUS", "ALL", "AND", "OR",
    "NOT", "IS", "NULL", "IN", "LIKE", "ESCAPE", "EXISTS", "CASE", "WHEN", "THEN", "ELSE", "END",
    "CAST", "CONCAT"]

def operatorSpellings : List String :=
  ["+", "-", "*", "/", "%", "||", "=", "<>", "<", "<=", ">", ">=", "&", "|"]

/-- Every symbol that is written. -/
def marks : List String := ["(", ")", ",", "."] ++ operatorSpellings

def IsBare (cs : List Char) : Prop := IsUnsigned cs ∨ ∃ ds, cs = '-' :: ds ∧ IsUnsigned ds

/-- Whether a token starts with a mark: an operator, or the sign of a number. -/
def Token.startsWithMark : Token → Bool
  | .symbol s => s != "("
  | .constant (.bare text) => text.toList.head? == some '-'
  | _ => false

/-- No mark comes first. -/
def IsUnmarked (ts : List Token) : Prop := ∀ t ∈ ts.head?, t.startsWithMark = false

namespace Dialect

variable (d : Dialect)

def typeWords : List String :=
  [d.typeNames.boolean, d.typeNames.int, d.typeNames.bigInt, d.typeNames.float,
    d.typeNames.decimal, d.typeNames.text, d.typeNames.date, d.typeNames.dateTime,
    d.typeNames.binary]

/-- What stands before and after the quotes of a string constant. -/
def quoteMargins : List (String × String) :=
  [("", ""), ("N", ""), (d.constants.dateLead, ""), (d.constants.dateTimeLead, "")] ++
    match d.constants.bytes with
    | .hexString => [("X", "")]
    | .hexNumber => []
    | .bytea => [("", "::bytea")]

/-- The tokens that need something between them. -/
inductive Solid : Token → Prop where
  | word {w : String} (h : w ∈ keywords ++ d.typeWords) : Solid (.word w)
  | verbatim (text : String) : Solid (.verbatim text)
  | name (n : String) : Solid (.name n)
  | bare {text : String} (h : IsBare text.toList) : Solid (.constant (.bare text))
  | quoted {lead tail : String} (content : String) (h : (lead, tail) ∈ d.quoteMargins) :
    Solid (.constant (.quoted lead content tail))
  | placeholder (b : Binding) : Solid (.placeholder b)

/-- A minus sign stands directly before operands that are `ok` only. -/
inductive PhraseOf (ok : List Token → Prop) : List Token → Prop where
  | solid {t : Token} (h : d.Solid t) : PhraseOf ok [t]
  | operator {s : String} (h : s ∈ operatorSpellings) : PhraseOf ok [.symbol s]
  | owned (owner : String) {ts : List Token} (h : PhraseOf ok ts) :
    PhraseOf ok (.name owner :: .symbol "." :: ts)
  | negated {ts : List Token} (h : PhraseOf ok ts) (operand : ok ts) :
    PhraseOf ok (.symbol "-" :: ts)
  | empty : PhraseOf ok (enclosed [])
  | enclosed {ts : List Token} (h : PhraseOf ok ts) : PhraseOf ok (enclosed ts)
  | called {t : Token} {ts : List Token} (h : d.Solid t)
    (arguments : PhraseOf ok (Token.enclosed ts)) : PhraseOf ok (t :: Token.enclosed ts)
  | spaced {a b : List Token} (ha : PhraseOf ok a) (hb : PhraseOf ok b) :
    PhraseOf ok (a ++ .space :: b)
  | listed {a b : List Token} (ha : PhraseOf ok a) (hb : PhraseOf ok b) :
    PhraseOf ok (a ++ .symbol "," :: .space :: b)

/-- A minus sign never stands before another mark. -/
abbrev Phrase : List Token → Prop := d.PhraseOf IsUnmarked

/-- What may follow a phrase. -/
def Tail (ok : List Token → Prop) (ts : List Token) : Prop :=
  ∀ a, d.PhraseOf ok a → d.PhraseOf ok (a ++ ts)

/-- What may stand before a phrase. -/
def Lead (ok : List Token → Prop) (ts : List Token) : Prop :=
  ∀ b, d.PhraseOf ok b → d.PhraseOf ok (ts ++ b)

variable {d} {ok : List Token → Prop}

namespace PhraseOf

/-- What holds of spaces, solid tokens and marks holds throughout a phrase. -/
theorem forall_mem {P : Token → Prop} (space : P .space) (solid : ∀ t, d.Solid t → P t)
    (symbol : ∀ s ∈ marks, P (.symbol s)) {ts : List Token} (h : d.PhraseOf ok ts) :
    ∀ t ∈ ts, P t := by
  have opening : P (.symbol "(") := symbol _ (by decide)
  have closing : P (.symbol ")") := symbol _ (by decide)
  have enclosed {ts : List Token} (h : ∀ t ∈ ts, P t) : ∀ t ∈ Token.enclosed ts, P t :=
    List.forall_mem_cons.2 ⟨opening, List.forall_mem_append.2 ⟨h, by simpa using closing⟩⟩
  induction h with
  | solid h => simpa using solid _ h
  | operator h => simpa using symbol _ (List.mem_append_right _ h)
  | owned owner h ih =>
    exact List.forall_mem_cons.2 ⟨solid _ (.name owner),
      List.forall_mem_cons.2 ⟨symbol _ (by decide), ih⟩⟩
  | negated h operand ih => exact List.forall_mem_cons.2 ⟨symbol _ (by decide), ih⟩
  | empty => exact enclosed (by simp)
  | enclosed h ih => exact enclosed ih
  | called h arguments ih => exact List.forall_mem_cons.2 ⟨solid _ h, ih⟩
  | spaced ha hb iha ihb =>
    exact List.forall_mem_append.2 ⟨iha, List.forall_mem_cons.2 ⟨space, ihb⟩⟩
  | listed ha hb iha ihb =>
    exact List.forall_mem_append.2 ⟨iha, List.forall_mem_cons.2 ⟨symbol _ (by decide),
      List.forall_mem_cons.2 ⟨space, ihb⟩⟩⟩

theorem keyword {w : String} (h : w ∈ keywords) : d.PhraseOf ok [.word w] :=
  .solid (.word (List.mem_append_left _ h))

theorem words {ws : List String} (ne : ws ≠ []) (h : ∀ w ∈ ws, w ∈ keywords) :
    d.PhraseOf ok (words ws) := by
  induction ws with
  | nil => exact absurd rfl ne
  | cons w ws ih =>
    have first : d.PhraseOf ok [.word w] := keyword (h w List.mem_cons_self)
    cases ws with
    | nil => simpa [Token.words] using first
    | cons v ws =>
      have rest := ih (by simp) fun w hw => h w (List.mem_cons_of_mem _ hw)
      have := first.spaced rest
      simpa [Token.words, List.intercalate_cons_cons] using this

theorem enclosedIf (needed : Bool) {ts : List Token} (h : d.PhraseOf ok ts) :
    d.PhraseOf ok (enclosedIf needed ts) := by
  cases needed
  · exact h
  · exact h.enclosed

theorem items {tss : List (List Token)} (ne : tss ≠ []) (h : ∀ ts ∈ tss, d.PhraseOf ok ts) :
    d.PhraseOf ok (Token.listed tss) := by
  induction tss with
  | nil => exact absurd rfl ne
  | cons ts tss ih =>
    have first := h ts List.mem_cons_self
    cases tss with
    | nil => simpa [Token.listed] using first
    | cons us tss =>
      have rest := ih (by simp) fun ts hts => h ts (List.mem_cons_of_mem _ hts)
      have := first.listed rest
      simpa [Token.listed, List.intercalate_cons_cons] using this

theorem enclosedItems {tss : List (List Token)} (h : ∀ ts ∈ tss, d.PhraseOf ok ts) :
    d.PhraseOf ok (Token.enclosed (Token.listed tss)) := by
  cases tss with
  | nil => exact .empty
  | cons ts tss => exact (items (by simp) h).enclosed

theorem qualified (qualifier : Option String) {t : Token} (h : d.Solid t) :
    d.PhraseOf ok (qualified qualifier t) := by
  cases qualifier
  · exact .solid h
  · exact .owned _ (.solid h)

theorem qualifiedCall (qualifier : Option String) {t : Token} {ts : List Token} (h : d.Solid t)
    (arguments : d.PhraseOf ok (Token.enclosed ts)) :
    d.PhraseOf ok (Token.qualified qualifier t ++ Token.enclosed ts) := by
  cases qualifier
  · exact .called h arguments
  · exact .owned _ (.called h arguments)

end PhraseOf

namespace Tail

theorem nil : d.Tail ok [] := fun a ha => by rwa [List.append_nil]

theorem append {x y : List Token} (hx : d.Tail ok x) (hy : d.Tail ok y) : d.Tail ok (x ++ y) :=
  fun a ha => by
    rw [← List.append_assoc]
    exact hy _ (hx _ ha)

theorem flatten {xs : List (List Token)} (h : ∀ x ∈ xs, d.Tail ok x) : d.Tail ok xs.flatten := by
  induction xs with
  | nil => exact nil
  | cons x xs ih =>
    exact append (h x List.mem_cons_self) (ih fun x hx => h x (List.mem_cons_of_mem _ hx))

theorem spaced {b : List Token} (h : d.PhraseOf ok b) : d.Tail ok (.space :: b) :=
  fun _ ha => ha.spaced h

theorem clause {ws : List String} {b : List Token} (ne : ws ≠ []) (h : ∀ w ∈ ws, w ∈ keywords)
    (hb : d.PhraseOf ok b) : d.Tail ok (clause ws ++ b) := fun a ha => by
  have := ha.spaced ((PhraseOf.words ne h).spaced hb)
  simpa [Token.clause] using this

theorem optionalClause {ws : List String} {content : Option (List Token)} (ne : ws ≠ [])
    (h : ∀ w ∈ ws, w ∈ keywords) (hc : ∀ ts ∈ content, d.PhraseOf ok ts) :
    d.Tail ok (optionalClause ws content) := by
  cases content with
  | none => exact nil
  | some ts => exact clause ne h (hc ts rfl)

theorem listClause {ws : List String} {items : List (List Token)} (ne : ws ≠ [])
    (h : ∀ w ∈ ws, w ∈ keywords) (hi : ∀ ts ∈ items, d.PhraseOf ok ts) :
    d.Tail ok (listClause ws items) := by
  cases items with
  | nil => exact nil
  | cons ts tss => exact clause ne h (.items (by simp) hi)

end Tail

namespace Lead

theorem nil : d.Lead ok [] := fun _ hb => hb

theorem append {x y : List Token} (hx : d.Lead ok x) (hy : d.Lead ok y) : d.Lead ok (x ++ y) :=
  fun b hb => by
    rw [List.append_assoc]
    exact hx _ (hy _ hb)

theorem spaced {a : List Token} (h : d.PhraseOf ok a) :
    d.Lead ok (a ++ [Token.space]) := fun b hb => by
  have := h.spaced hb
  simpa using this

end Lead

/-! ### The parts of a block -/

theorem typeToken_solid (type : SqlType) : d.Solid (d.typeToken type) := by
  cases type with
  | custom name => exact .verbatim name
  | _ => exact .word (by simp [typeName, typeWords])

theorem functionToken_solid (isBuiltIn : Bool) (name : String) :
    d.Solid (functionToken isBuiltIn name) := by
  cases isBuiltIn
  · exact .name name
  · exact .verbatim name

theorem constant_solid (hd : d.BuiltIn) (value : Value) (type : SqlType) :
    d.Solid (.constant (d.constant value type)) := by
  have bare (value : Value) {text : String} (h : d.constant value type = .bare text) :
      d.Solid (.constant (.bare text)) := .bare ((constant_bare hd h).imp id And.right)
  cases value with
  | null => exact bare .null rfl
  | bool b => exact bare (.bool b) rfl
  | int n => exact bare (.int n) rfl
  | float x => exact bare (.float x) rfl
  | text s =>
    simp only [constant]
    split
    · exact .quoted s (by simp [quoteMargins])
    · exact .quoted s (by simp [quoteMargins])
  | date date => exact .quoted _ (by simp [quoteMargins])
  | dateTime dt => exact .quoted _ (by simp [quoteMargins])
  | bytes bs =>
    cases form : d.constants.bytes with
    | hexString => simpa only [constant, form] using .quoted _ (by simp [quoteMargins, form])
    | hexNumber => simpa only [constant, form] using .bare (.inl (.inr (isMantissa_hex bs).isNumber))
    | bytea => simpa only [constant, form] using .quoted _ (by simp [quoteMargins, form])

theorem literalToken_solid (hd : d.BuiltIn) (o : Options) (l : Literal) :
    d.Solid (d.literalToken o l) := by
  unfold literalToken
  split
  · exact .placeholder _
  · exact constant_solid hd l.value l.type

theorem binaryTokens_phrase (hd : d.BuiltIn) (op : BinaryOp) (encloseLeft encloseRight : Bool)
    {left right : List Token} (hl : d.PhraseOf ok left) (hr : d.PhraseOf ok right) :
    d.PhraseOf ok (d.binaryTokens op encloseLeft encloseRight left right) := by
  have operator : d.PhraseOf ok [d.operatorToken op] := by
    cases op with
    | and => exact .keyword (by decide)
    | or => exact .keyword (by decide)
    | concat =>
      refine .operator ?_
      cases hd <;> simp [spelling, operatorSpellings, postgres, mysql, sqlite, sqlServer, oracle]
    | _ => exact .operator (by simp [spelling, BinaryOp.spelling, operatorSpellings])
  unfold binaryTokens
  split
  · refine .called (.word (List.mem_append_left _ (by decide))) (.enclosedItems fun ts hts => ?_)
    simp only [List.mem_cons, List.not_mem_nil, or_false] at hts
    exact hts.elim (· ▸ hl) (· ▸ hr)
  · exact (hl.enclosedIf encloseLeft).spaced (operator.spaced (hr.enclosedIf encloseRight))

theorem aliased_tail (aliasName : String) : d.Tail ok (d.aliased aliasName []) := by
  have name : d.PhraseOf ok [.name aliasName] := .solid (.name aliasName)
  unfold aliased aliasLead
  split
  · exact .clause (by simp) (by decide) name
  · exact .spaced name

theorem aliased_phrase (aliasName : String) {source : List Token} (h : d.PhraseOf ok source) :
    d.PhraseOf ok (d.aliased aliasName source) := by
  have := aliased_tail aliasName _ h
  simpa [aliased] using this

theorem operandTokens_phrase (paged : Bool) {operand : List Token} (h : d.PhraseOf ok operand) :
    d.PhraseOf ok (d.operandTokens paged operand) := by
  unfold operandTokens operandLead
  split
  · split
    · exact h.enclosed
    · have select : d.PhraseOf ok [.word "SELECT"] := .keyword (by decide)
      have all : d.PhraseOf ok [.symbol "*"] := .operator (by decide)
      have «from» : d.PhraseOf ok [.word "FROM"] := .keyword (by decide)
      exact select.spaced (all.spaced («from».spaced h.enclosed))
  · exact h

theorem setWords_keyword (hd : d.BuiltIn) (operator : SetOperator) (distinct : Bool) :
    ∀ w ∈ d.setWord operator :: (if distinct then [] else ["ALL"]), w ∈ keywords := by
  cases hd <;> cases operator <;> cases distinct <;>
    simp [setWord, SetOperator.spelling, keywords, postgres, mysql, sqlite, sqlServer, oracle]

theorem distinctTokens_lead (distinct : Bool) : d.Lead ok (distinctTokens distinct) := by
  cases distinct
  · exact .nil
  · exact .spaced (a := [.word "DISTINCT"]) (.keyword (by decide))

theorem frontTokens_lead (hd : d.BuiltIn) {limit : Option (List Token)}
    (h : ∀ ts ∈ limit, d.PhraseOf ok ts) (offset : Option (List Token)) :
    d.Lead ok (d.frontTokens limit offset) := by
  have top {ts : List Token} (hts : d.PhraseOf ok ts) :
      d.Lead ok ([Token.word "TOP", .symbol "("] ++ ts ++ [Token.symbol ")", .space]) := by
    intro b hb
    have word : d.Solid (.word "TOP") := .word (List.mem_append_left _ (by decide))
    have := (PhraseOf.called word hts.enclosed).spaced hb
    simpa [Token.enclosed] using this
  cases limit with
  | none => cases offset <;> exact .nil
  | some l =>
    cases offset with
    | none => cases hd <;> first | exact .nil | exact top (h l rfl)
    | some k => exact .nil

theorem projectionTokens_phrase {projections : List (List Token)}
    (h : ∀ ts ∈ projections, d.PhraseOf ok ts) : d.PhraseOf ok (projectionTokens projections) := by
  cases projections with
  | nil => exact .solid (.bare (.inl (isUnsigned_digits (by decide) (by decide))))
  | cons ts tss => exact .items (by simp) h

theorem sourceTokens_tail (hd : d.BuiltIn) {sources : List (List Token)}
    (h : ∀ ts ∈ sources, d.PhraseOf ok ts) : d.Tail ok (d.sourceTokens sources) := by
  unfold sourceTokens
  split
  · refine .optionalClause (by simp) (by decide) fun ts hts => ?_
    obtain ⟨word, hw, rfl⟩ := Option.map_eq_some_iff.1 hts
    cases hd <;> cases hw
    exact .keyword (by decide)
  · exact .listClause (by simp) (by decide) h

theorem orderingTokens_tail (hd : d.BuiltIn) {orderings : List (List Token)} (hasOffset : Bool)
    (h : ∀ ts ∈ orderings, d.PhraseOf ok ts) :
    d.Tail ok (d.orderingTokens orderings hasOffset) := by
  unfold orderingTokens
  split
  · refine .optionalClause (by simp) (by decide) fun ts hts => ?_
    have select : d.PhraseOf ok [.word "SELECT"] := .keyword (by decide)
    have one : d.PhraseOf ok [.constant (.bare "1")] :=
      .solid (.bare (.inl (isUnsigned_digits (by decide) (by decide))))
    cases hd <;> cases hts
    exact (select.spaced one).enclosed
  · exact .listClause (by simp) (by decide) h

theorem fetched_tail {which : String} (hw : which ∈ keywords) {limit : Option (List Token)}
    (h : ∀ ts ∈ limit, d.PhraseOf ok ts) : d.Tail ok (PagingForm.tokens.fetched which limit) := by
  cases limit with
  | none => exact .nil
  | some l =>
    have lead : ∀ w ∈ ["FETCH", which], w ∈ keywords :=
      List.forall_mem_cons.2 ⟨by decide, by simpa using hw⟩
    have only : d.PhraseOf ok (words ["ROWS", "ONLY"]) := .words (by simp) (by decide)
    exact (Tail.clause (by simp) lead (h l rfl)).append (.spaced only)

theorem pagingTokens_tail {form : PagingForm}
    (all : ∀ rows, form = .limitOffset rows → IsBare rows.toList)
    {limit offset : Option (List Token)} (hl : ∀ ts ∈ limit, d.PhraseOf ok ts)
    (hk : ∀ ts ∈ offset, d.PhraseOf ok ts) : d.Tail ok (form.tokens limit offset) := by
  cases form with
  | offsetLimit =>
    exact (Tail.optionalClause (by simp) (by decide) hk).append
      (.optionalClause (by simp) (by decide) hl)
  | limitOffset rows =>
    have count : d.PhraseOf ok (limit.getD [.constant (.bare rows)]) := by
      cases limit with
      | none => exact .solid (.bare (all rows rfl))
      | some l => exact hl l rfl
    exact (Tail.clause (by simp) (by decide) count).append
      (.optionalClause (by simp) (by decide) hk)
  | fetch =>
    cases offset with
    | none => exact fetched_tail (by decide) hl
    | some k =>
      have rows : d.PhraseOf ok [.word "ROWS"] := .keyword (by decide)
      exact (Tail.clause (by simp) (by decide) (hk k rfl)).append
        ((Tail.spaced rows).append (fetched_tail (by decide) hl))

theorem backTokens_tail (hd : d.BuiltIn) {limit offset : Option (List Token)}
    (hl : ∀ ts ∈ limit, d.PhraseOf ok ts) (hk : ∀ ts ∈ offset, d.PhraseOf ok ts) :
    d.Tail ok (d.backTokens limit offset) := by
  have all : ∀ rows, d.paging = .limitOffset rows → IsBare rows.toList := by
    intro rows h
    cases hd <;> cases h
    · exact .inl (isUnsigned_digits (by decide) (by decide))
    · exact .inr ⟨['1'], by decide, isUnsigned_digits (by decide) (by decide)⟩
  have none : ∀ ts ∈ (none : Option (List Token)), d.PhraseOf ok ts := fun _ h => nomatch h
  unfold backTokens pagingPlan
  cases limit with
  | none =>
    cases offset with
    | none => exact .nil
    | some k => exact pagingTokens_tail all none hk
  | some l =>
    cases offset with
    | none =>
      cases d.limitPlace with
      | leading form => exact .nil
      | trailing => exact pagingTokens_tail all hl none
    | some k => exact pagingTokens_tail all hl hk

/-- A block is a phrase if its parts are. -/
theorem assemble_phrase (hd : d.BuiltIn) {c : Clauses}
    (projections : ∀ ts ∈ c.projections, d.PhraseOf ok ts)
    (sources : ∀ ts ∈ c.sources, d.PhraseOf ok ts) (joins : ∀ ts ∈ c.joins, d.Tail ok ts)
    (predicate : ∀ ts ∈ c.predicate, d.PhraseOf ok ts)
    (groupBy : ∀ ts ∈ c.groupBy, d.PhraseOf ok ts) (having : ∀ ts ∈ c.having, d.PhraseOf ok ts)
    (orderings : ∀ ts ∈ c.orderings, d.PhraseOf ok ts)
    (limit : ∀ ts ∈ c.limit, d.PhraseOf ok ts) (offset : ∀ ts ∈ c.offset, d.PhraseOf ok ts) :
    d.PhraseOf ok (d.assemble c) := by
  have select : d.Lead ok [.word "SELECT", .space] :=
    .spaced (a := [.word "SELECT"]) (.keyword (by decide))
  have tail : d.Tail ok (d.sourceTokens c.sources ++ (c.joins.flatten ++
      (optionalClause ["WHERE"] c.predicate ++ (listClause ["GROUP", "BY"] c.groupBy ++
      (optionalClause ["HAVING"] c.having ++ (d.orderingTokens c.orderings c.offset.isSome ++
        d.backTokens c.limit c.offset)))))) :=
    (sourceTokens_tail hd sources).append <| (Tail.flatten joins).append <|
      (Tail.optionalClause (by simp) (by decide) predicate).append <|
      (Tail.listClause (by simp) (by decide) groupBy).append <|
      (Tail.optionalClause (by simp) (by decide) having).append <|
      (orderingTokens_tail hd _ orderings).append (backTokens_tail hd limit offset)
  have := (select.append (distinctTokens_lead c.distinct) |>.append
    (frontTokens_lead hd limit c.offset)) _
    (tail _ (projectionTokens_phrase projections))
  rw [assemble_eq]
  simpa only [List.append_assoc] using this

end Dialect

end SelectCompiler
