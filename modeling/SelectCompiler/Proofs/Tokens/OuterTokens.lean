import SelectCompiler.Proofs.Tokens.Items
import SelectCompiler.Proofs.Tokens.TreePhrase

/-!
The tokens of a written query outside of parentheses. Main statement: expressions and sources have no
commas there, and no words but those that expressions are written with.
-/

namespace SelectCompiler

open Token (Closes clause words enclosed enclosedIf listed qualified optionalClause listClause items)

variable {d : Dialect} {o : Options} {ok : Token → Prop}

/-- Tokens that close what they open; those outside of parentheses are all `ok`. -/
structure Outer (ok : Token → Prop) (ts : List Token) : Prop where
  closes : Closes ts
  forall_mem : ∀ t, Item.token t ∈ items ts → ok t

namespace Outer

theorem mono {ok' : Token → Prop} (imp : ∀ t, ok t → ok' t) {ts : List Token} (h : Outer ok ts) :
    Outer ok' ts :=
  ⟨h.closes, fun t ht => imp t (h.forall_mem t ht)⟩

theorem nil : Outer ok [] := ⟨.nil, fun _ h => nomatch h⟩

theorem space : Outer ok [.space] := ⟨.space, fun _ h => nomatch h⟩

theorem append {a b : List Token} (ha : Outer ok a) (hb : Outer ok b) : Outer ok (a ++ b) where
  closes := ha.closes.append hb.closes
  forall_mem t h := by
    rw [ha.closes.apart, List.mem_append] at h
    exact h.elim (ha.forall_mem t) (hb.forall_mem t)

theorem token {t : Token} (h : t.isPlain = true) (allowed : ok t) : Outer ok [t] where
  closes := .plain h
  forall_mem u hu := by
    rw [Token.items_plain h] at hu
    obtain rfl := Item.token.inj (List.mem_singleton.1 hu)
    exact allowed

theorem word {w : String} (allowed : ok (.word w)) : Outer ok [.word w] := token rfl allowed

theorem words {ws : List String} (allowed : ∀ w ∈ ws, ok (.word w)) : Outer ok (words ws) where
  closes := .words ws
  forall_mem t h := by
    rw [Token.items_words] at h
    obtain ⟨w, hw, eq⟩ := List.mem_map.1 h
    exact Item.token.inj eq ▸ allowed w hw

theorem enclosed {ts : List Token} (h : Closes ts) : Outer ok (enclosed ts) where
  closes := h.enclosed
  forall_mem t ht := by
    rw [Token.items_group h] at ht
    cases List.mem_singleton.1 ht

theorem enclosedIf (needed : Bool) {ts : List Token} (h : Outer ok ts) :
    Outer ok (enclosedIf needed ts) := by
  cases needed
  · exact h
  · exact enclosed h.closes

theorem flatten {tss : List (List Token)} (h : ∀ ts ∈ tss, Outer ok ts) : Outer ok tss.flatten := by
  induction tss with
  | nil => exact nil
  | cons ts tss ih =>
    exact (h ts List.mem_cons_self).append (ih fun ts hts => h ts (List.mem_cons_of_mem _ hts))

theorem listed (comma : ok (.symbol ",")) {tss : List (List Token)} (h : ∀ ts ∈ tss, Outer ok ts) :
    Outer ok (listed tss) := by
  induction tss with
  | nil => exact nil
  | cons ts tss ih =>
    have first := h ts List.mem_cons_self
    cases tss with
    | nil => simpa [Token.listed] using first
    | cons us tss =>
      have rest := ih fun ts hts => h ts (List.mem_cons_of_mem _ hts)
      have mark : Outer ok [.symbol ",", .space] := (token (by decide) comma).append space
      simpa [Token.listed, List.intercalate_cons_cons] using (first.append mark).append rest

theorem clause {ws : List String} (allowed : ∀ w ∈ ws, ok (.word w)) : Outer ok (clause ws) := by
  simpa [Token.clause] using (space.append (words allowed)).append space

theorem optionalClause {ws : List String} (allowed : ∀ w ∈ ws, ok (.word w))
    {content : Option (List Token)} (h : ∀ ts ∈ content, Outer ok ts) :
    Outer ok (optionalClause ws content) := by
  cases content with
  | none => exact nil
  | some ts => exact (clause allowed).append (h ts rfl)

theorem listClause {ws : List String} (allowed : ∀ w ∈ ws, ok (.word w)) (comma : ok (.symbol ","))
    {tss : List (List Token)} (h : ∀ ts ∈ tss, Outer ok ts) : Outer ok (listClause ws tss) := by
  cases tss with
  | nil => exact nil
  | cons ts tss => exact (clause allowed).append (listed comma h)

end Outer

/-! ### Operands -/

/-- The words of expressions and sources outside of parentheses. -/
def operandWords : List String :=
  ["AS", "AND", "OR", "NOT", "IS", "NULL", "IN", "LIKE", "ESCAPE", "EXISTS", "CASE", "WHEN",
    "THEN", "ELSE", "END", "CAST", "CONCAT"]

def Token.OfOperand : Token → Prop
  | .word w => w ∈ operandWords
  | .symbol s => s ≠ ","
  | _ => True

instance : DecidablePred Token.OfOperand
  | .word w => inferInstanceAs (Decidable (w ∈ operandWords))
  | .symbol s => inferInstanceAs (Decidable (s ≠ ","))
  | .space | .name _ | .verbatim _ | .constant _ | .placeholder _ => .isTrue trivial

namespace Outer

theorem operandName (n : String) : Outer Token.OfOperand [.name n] := token rfl trivial

theorem operandSymbol {s : String} (h : s ∈ "." :: operatorSpellings) :
    Outer Token.OfOperand [.symbol s] := by
  have marks : ∀ s ∈ "." :: operatorSpellings, (Token.symbol s).isPlain = true ∧ s ≠ "," := by decide
  exact token (marks s h).1 (marks s h).2

theorem qualified (qualifier : Option String) {t : Token} (h : Outer Token.OfOperand [t]) :
    Outer Token.OfOperand (qualified qualifier t) := by
  cases qualifier with
  | none => exact h
  | some q => exact (operandName q).append ((operandSymbol (by decide)).append h)

theorem functionToken (isBuiltIn : Bool) (name : String) :
    Outer Token.OfOperand [Dialect.functionToken isBuiltIn name] := by
  cases isBuiltIn <;> exact token rfl trivial

theorem literalToken (l : Literal) : Outer Token.OfOperand [d.literalToken o l] := by
  rw [Dialect.literalToken]
  split <;> exact token rfl trivial

theorem operatorToken (hd : d.BuiltIn) (op : BinaryOp) :
    Outer Token.OfOperand [d.operatorToken op] := by
  cases op with
  | and => exact word (w := "AND") (by decide)
  | or => exact word (w := "OR") (by decide)
  | concat =>
    refine operandSymbol (List.mem_cons_of_mem _ ?_)
    cases hd <;> simp [Dialect.spelling, operatorSpellings, Dialect.postgres, Dialect.mysql,
      Dialect.sqlite, Dialect.sqlServer, Dialect.oracle]
  | _ => exact operandSymbol (by simp [Dialect.spelling, BinaryOp.spelling]; decide)

theorem binaryTokens (hd : d.BuiltIn) (op : BinaryOp) (encloseLeft encloseRight : Bool)
    {left right : List Token} (hl : Outer Token.OfOperand left)
    (hr : Outer Token.OfOperand right) :
    Outer Token.OfOperand (d.binaryTokens op encloseLeft encloseRight left right) := by
  unfold Dialect.binaryTokens
  split
  · have comma : Closes [.symbol ",", .space] := (Closes.plain (by decide)).append .space
    have both : Closes (Token.listed [left, right]) := by
      simpa [Token.listed] using (hl.closes.append comma).append hr.closes
    exact (word (w := "CONCAT") (by decide)).append (enclosed both)
  · have operator : Outer Token.OfOperand [.space, d.operatorToken op, .space] :=
      (space.append (operatorToken hd op)).append space
    simpa using ((hl.enclosedIf encloseLeft).append operator).append (hr.enclosedIf encloseRight)

theorem testWords (negated : Bool) {w : String} (h : w ∈ operandWords) :
    Outer Token.OfOperand (testWords negated w) := by
  refine clause fun v hv => ?_
  cases negated with
  | false => exact List.mem_singleton.1 hv ▸ h
  | true =>
    rcases List.mem_cons.1 hv with rfl | hv
    · decide
    · exact List.mem_singleton.1 hv ▸ h

theorem aliased (aliasName : String) {source : List Token} (h : Outer Token.OfOperand source) :
    Outer Token.OfOperand (d.aliased aliasName source) := by
  have lead : Outer Token.OfOperand d.aliasLead := by
    unfold Dialect.aliasLead
    split
    · exact clause (by decide)
    · exact space
  exact (h.append lead).append (operandName aliasName)

theorem projectionAlias (e : Expr) (aliasName : String) :
    Outer Token.OfOperand (projectionAlias e aliasName) := by
  have named : Outer Token.OfOperand (Token.clause ["AS"] ++ [Token.name aliasName]) :=
    (clause (by decide)).append (operandName aliasName)
  unfold SelectCompiler.projectionAlias
  split <;> split <;> first | exact nil | exact named

theorem options {e? : Option Expr} (h : ∀ e ∈ e?, Outer ok (e.tokens d o)) :
    ∀ ts ∈ e?.map (Expr.tokens d o), Outer ok ts := by
  rintro ts hts
  obtain ⟨e, he, rfl⟩ := Option.map_eq_some_iff.1 hts
  exact h e he

end Outer

theorem closes_listed {es : List Expr} (h : ∀ e ∈ es, Closes (e.tokens d o)) :
    Closes (listed (es.map (Expr.tokens d o))) := by
  have all (ts : List Token) (hts : ts ∈ es.map (Expr.tokens d o)) : Outer (fun _ => True) ts := by
    obtain ⟨e, he, rfl⟩ := List.mem_map.1 hts
    exact ⟨h e he, fun _ _ => trivial⟩
  exact (Outer.listed trivial all).closes

/-- The blocks, and the commas, that expressions and sources have are enclosed. -/
theorem operand_step (hd : d.BuiltIn) (o : Options) :
    TreeStep (fun e => Outer Token.OfOperand (e.tokens d o)) (fun q => Closes (q.tokens d o))
      (fun s => Outer Token.OfOperand (s.tokens d o)) where
  column c := .qualified _ (.operandName c.name)
  literal l := .literalToken l
  parameter p := .token rfl trivial
  unary op operand type ih := by
    have tested := ih.enclosedIf operand.enclosedInTest
    cases op with
    | not => exact ((Outer.word (by decide)).append .space).append (ih.enclosedIf _)
    | negate => exact (Outer.operandSymbol (by decide)).append (ih.enclosedIf _)
    | isNull => exact tested.append (Outer.space.append (.words (by decide)))
    | isNotNull => exact tested.append (Outer.space.append (.words (by decide)))
    | cast target =>
      have type : Closes [d.typeToken target] := .plain (d.typeToken_solid target).isPlain
      exact (Outer.word (by decide)).append
        (.enclosed ((ih.closes.append (.clause ["AS"])).append type))
  binary left op right type ihl ihr := .binaryTokens hd op _ _ ihl ihr
  function call ih := by
    rw [call.tokens_eq]
    refine (Outer.qualified _ (.functionToken call.isBuiltIn call.name)).append ?_
    split
    · exact .nil
    · exact .enclosed (closes_listed fun e he => (ih e he).closes)
  subquery q ih := .enclosed ih
  exist q negated ih := by
    have «not» : Outer Token.OfOperand (if negated then [Token.word "NOT", .space] else []) := by
      cases negated
      · exact .nil
      · exact (Outer.word (by decide)).append .space
    exact «not».append (((Outer.word (by decide)).append .space).append (.enclosed ih))
  inList item values negated ihi ihv := by
    simp only [Expr.tokens, Expr.tokensEach_eq]
    exact ((ihi.enclosedIf _).append (.testWords negated (by decide))).append
      (.enclosed (closes_listed fun e he => (ihv e he).closes))
  inSelect item q negated ihi ihq :=
    ((ihi.enclosedIf _).append (.testWords negated (by decide))).append (.enclosed ihq)
  like item pattern escape negated ihi ihp ihe := by
    rw [Expr.like_tokens]
    exact (((ihi.enclosedIf _).append (.testWords negated (by decide))).append
      (ihp.enclosedIf _)).append (.optionalClause (by decide) (.options ihe))
  case operand whens otherwise type iho ihw ihe := by
    have operands :
        Outer Token.OfOperand (operand.toList.flatMap fun e => .space :: e.tokens d o) := by
      cases operand with
      | none => exact .nil
      | some e => simpa using Outer.space.append (iho e rfl)
    have arms : Outer Token.OfOperand (whens.map (Expr.armTokens d o)).flatten := by
      refine .flatten (List.forall_mem_map.2 fun w hw => ?_)
      have first : Outer Token.OfOperand (clause ["WHEN"]) := .clause (by decide)
      have second : Outer Token.OfOperand (clause ["THEN"]) := .clause (by decide)
      exact ((first.append (ihw w hw).1).append second).append (ihw w hw).2
    have others : Outer Token.OfOperand
        (optionalClause ["ELSE"] (otherwise.map (Expr.tokens d o))) :=
      .optionalClause (by decide) (.options ihe)
    have lead : Outer Token.OfOperand [.word "CASE"] := .word (by decide)
    have last : Outer Token.OfOperand [.space, .word "END"] := Outer.space.append (.word (by decide))
    rw [Expr.case_tokens]
    exact (((lead.append operands).append arms).append others).append last
  fragment text := .token rfl trivial
  block q _ _ _ _ _ _ _ _ _ := ((phrase_step hd o).ofSelect q).closes
  table name schema aliasName := by
    have table : Outer Token.OfOperand (qualified (givenName schema) (.name name)) :=
      .qualified _ (.operandName name)
    simp only [Source.tokens]
    split
    · exact table.append (.aliased _ .nil)
    · exact table.append .nil
  derived q aliasName ih := .aliased _ (.enclosed ih)
  tableFunction call ih := by
    rw [call.tokens_eq]
    exact .aliased _ ((Outer.qualified _ (.functionToken call.isBuiltIn call.name)).append
      (.enclosed (closes_listed fun e he => (ih e he).closes)))
  set operation left right := by
    have left := Dialect.operandTokens_phrase operation.left.isPaged
      ((phrase_step hd o).ofSelect operation.left)
    have right := Dialect.operandTokens_phrase operation.right.isPaged
      ((phrase_step hd o).ofSelect operation.right)
    rw [operation.tokens_eq]
    exact .aliased _ (.enclosed ((left.closes.append (.clause _)).append right.closes))

end SelectCompiler
