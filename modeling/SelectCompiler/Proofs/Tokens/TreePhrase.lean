import SelectCompiler.Proofs.Tokens.Phrase
import SelectCompiler.Proofs.Tree.Nodes

/-!
Every tree is written as a phrase, with or without faults.
-/

namespace SelectCompiler

open Token (clause words enclosed enclosedIf listed qualified optionalClause listClause)

variable {d : Dialect} {o : Options} {ok : List Token → Prop}

theorem head_ne_minus {cs : List Char} (h : IsUnsigned cs) : cs.head? ≠ some '-' := by
  rcases h with ⟨w, hw, rfl⟩ | ⟨mantissa, exponent, rfl, ⟨⟨c, hc, digit⟩, -⟩, -⟩
  · intro minus
    have letters := List.all_eq_true.1 (constantWord_chars w hw).2
    exact absurd (letters _ (List.mem_of_mem_head? minus)) (by decide)
  · rw [List.head?_append, hc]
    rintro ⟨⟩
    exact absurd digit (by decide)

theorem literalToken_unmarked (hd : d.BuiltIn) {l : Literal} (h : l.value.isSigned = false) :
    (d.literalToken o l).startsWithMark = false := by
  unfold Dialect.literalToken
  split
  · rfl
  · cases eq : d.constant l.value l.type with
    | bare text =>
      have unsigned : IsUnsigned text.toList :=
        (Dialect.constant_bare hd eq).resolve_right fun signed => by simp [h] at signed
      simpa [Token.startsWithMark] using head_ne_minus unsigned
    | quoted lead content tail => rfl

theorem head?_qualified (qualifier : Option String) (t : Token) (ts : List Token) :
    (qualified qualifier t ++ ts).head? = some ((qualifier.map Token.name).getD t) := by
  cases qualifier <;> rfl

theorem BinaryOp.rank_lt (op : BinaryOp) : op.rank < 8 := by cases op <;> decide

/-- What a minus sign takes without parentheses. -/
inductive Expr.IsDirect : Expr → Prop
  | column (c : Column) : IsDirect (.column c)
  | literal (l : Literal) (sign : (Expr.literal l).startsWithMinus = false) : IsDirect (.literal l)
  | parameter (p : Parameter) : IsDirect (.parameter p)
  | cast (target : SqlType) (operand : Expr) (type : SqlType) :
    IsDirect (.unary (.cast target) operand type)
  | function (call : FunctionCall) : IsDirect (.function call)
  | subquery (q : Select) : IsDirect (.subquery q)
  | exist (q : Select) (negated : Bool) : IsDirect (.exists q negated)
  | case (operand : Option Expr) (whens : List (Expr × Expr)) (otherwise : Option Expr)
    (type : SqlType) : IsDirect (.case operand whens otherwise type)
  | fragment (text : String) (sign : (Expr.fragment text).startsWithMinus = false) :
    IsDirect (.fragment text)

theorem Expr.isDirect {e : Expr} (h : e.enclosedUnderMinus = false) : e.IsDirect := by
  simp only [enclosedUnderMinus, Bool.or_eq_false_iff, decide_eq_false_iff_not] at h
  obtain ⟨rank, sign⟩ := h
  cases e with
  | column c => exact .column c
  | literal l => exact .literal l sign
  | parameter p => exact .parameter p
  | unary op operand type =>
    cases op with
    | negate => cases sign
    | cast target => exact .cast target operand type
    | _ => exact absurd (by simp [Expr.rank]) rank
  | binary left op right type => exact absurd op.rank_lt rank
  | function call => exact .function call
  | subquery q => exact .subquery q
  | «exists» q negated => exact .exist q negated
  | case operand whens otherwise type => exact .case operand whens otherwise type
  | fragment text => exact .fragment text sign
  | _ => exact absurd (by simp [Expr.rank]) rank

/-- An operand that follows a minus sign directly has none in front. -/
theorem unmarked_operand (hd : d.BuiltIn) {e : Expr} (h : e.enclosedUnderMinus = false) :
    IsUnmarked (e.tokens d o) := by
  intro t ht
  cases Expr.isDirect h with
  | column c =>
    rw [Expr.tokens, ← List.append_nil (qualified _ _), head?_qualified] at ht
    cases ht
    cases givenName c.table <;> rfl
  | literal l sign =>
    rw [Expr.tokens] at ht
    cases ht
    exact literalToken_unmarked hd (by rw [← sign]; rfl)
  | function call =>
    rw [call.tokens_eq, head?_qualified] at ht
    cases ht
    cases d.schemaOf call.isBuiltIn call.schema <;> cases call.isBuiltIn <;> rfl
  | exist q negated => cases negated <;> (cases ht; rfl)
  | case operand whens otherwise type =>
    rw [Expr.case_tokens] at ht
    cases ht
    rfl
  | parameter p | cast target operand type | subquery q | fragment text sign =>
    cases ht
    rfl

theorem testWords_tail (negated : Bool) {word : String} (hw : word ∈ keywords) {ts : List Token}
    (h : d.PhraseOf ok ts) : d.Tail ok (testWords negated word ++ ts) := by
  refine .clause (by cases negated <;> simp) (fun w hw' => ?_) h
  cases negated <;> simp only [Bool.false_eq_true, if_false, if_true, List.mem_cons,
    List.not_mem_nil, or_false] at hw'
  · exact hw' ▸ hw
  · exact hw'.elim (· ▸ by decide) (· ▸ hw)

theorem phrases_map {α : Type} {tokens : α → List Token} {xs : List α}
    (h : ∀ x ∈ xs, d.PhraseOf ok (tokens x)) : ∀ ts ∈ xs.map tokens, d.PhraseOf ok ts :=
  List.forall_mem_map.2 h

theorem phrases_option {e? : Option Expr} (h : ∀ e ∈ e?, d.PhraseOf ok (e.tokens d o)) :
    ∀ ts ∈ e?.map (Expr.tokens d o), d.PhraseOf ok ts := by
  rintro ts hts
  obtain ⟨e, he, rfl⟩ := Option.map_eq_some_iff.1 hts
  exact h e he

theorem projectionAlias_tail (e : Expr) (aliasName : String) :
    d.Tail ok (projectionAlias e aliasName) := by
  have named : d.Tail ok (clause ["AS"] ++ [Token.name aliasName]) :=
    .clause (by simp) (by decide) (.solid (.name aliasName))
  unfold projectionAlias
  split <;> split <;> first | exact .nil | exact named

section Step

variable {G : Node → Prop}

/-- A node is written as a phrase if its parts are, and what stands directly behind its minus sign
may stand there. The condition `G` on trees passes from a node to its parts. -/
theorem phraseOf_step (hd : d.BuiltIn) (o : Options) (down : ∀ n, G n → ∀ m ∈ n.parts, G m)
    (enclosed : ∀ ts, ok (Token.enclosed ts))
    (direct : ∀ e, G (.expr e) → e.enclosedUnderMinus = false → ok (e.tokens d o)) :
    TreeStep (fun e => G (.expr e) → d.PhraseOf ok (e.tokens d o))
      (fun q => G (.block q) → d.PhraseOf ok (q.tokens d o))
      (fun s => G (.source s) → d.PhraseOf ok (s.tokens d o)) where
  column c _ := .qualified _ (.name c.name)
  literal l _ := .solid (Dialect.literalToken_solid hd o l)
  parameter p _ := .solid (.placeholder _)
  unary op operand type ih g := by
    have inner : G (.expr operand) := down _ g _ (by simp [Node.parts])
    have ih := ih inner
    have «not» : d.PhraseOf ok [.word "NOT"] := .keyword (by decide)
    cases op with
    | not => exact «not».spaced (ih.enclosedIf _)
    | negate =>
      cases needed : operand.enclosedUnderMinus with
      | true =>
        simp only [Expr.tokens, needed]
        exact ih.enclosed.negated (enclosed _)
      | false =>
        simp only [Expr.tokens, needed]
        exact ih.negated (direct operand inner needed)
    | isNull => exact (ih.enclosedIf _).spaced (.words (by simp) (by decide))
    | isNotNull => exact (ih.enclosedIf _).spaced (.words (by simp) (by decide))
    | cast target =>
      have named : d.PhraseOf ok (operand.tokens d o ++ clause ["AS"] ++ [d.typeToken target]) := by
        rw [List.append_assoc]
        exact Dialect.Tail.clause (by simp) (by decide) (.solid (d.typeToken_solid target)) _ ih
      exact .called (.word (List.mem_append_left _ (by decide))) named.enclosed
  binary left op right type ihl ihr g := by
    have parts := down _ g
    simp only [Node.parts, List.forall_mem_cons] at parts
    exact Dialect.binaryTokens_phrase hd op _ _ (ihl parts.1) (ihr parts.2.1)
  function call ih g := by
    have ih : ∀ e ∈ call.arguments, d.PhraseOf ok (e.tokens d o) :=
      fun e he => ih e he (down _ g _ (List.mem_map_of_mem he))
    have head := Dialect.functionToken_solid (d := d) call.isBuiltIn call.name
    rw [call.tokens_eq]
    cases call.isNiladic with
    | true => simpa using .qualified _ head
    | false => exact .qualifiedCall _ head (.enclosedItems (phrases_map ih))
  subquery q ih g := (ih (down _ g _ (by simp [Node.parts]))).enclosed
  exist q negated ih g := by
    have ih := ih (down _ g _ (by simp [Node.parts]))
    have «not» : d.PhraseOf ok [.word "NOT"] := .keyword (by decide)
    have «exists» : d.PhraseOf ok [.word "EXISTS"] := .keyword (by decide)
    cases negated
    · exact «exists».spaced ih.enclosed
    · exact «not».spaced («exists».spaced ih.enclosed)
  inList item values negated ihi ihv g := by
    have parts := down _ g
    simp only [Node.parts, List.forall_mem_cons, List.forall_mem_map] at parts
    have ihi := ihi parts.1
    have ihv := fun e he => ihv e he (parts.2 e he)
    simp only [Expr.tokens, Expr.tokensEach_eq, List.append_assoc]
    exact testWords_tail negated (by decide) (.enclosedItems (phrases_map ihv)) _ (ihi.enclosedIf _)
  inSelect item q negated ihi ihq g := by
    have parts := down _ g
    simp only [Node.parts, List.forall_mem_cons] at parts
    have ihi := ihi parts.1
    have ihq := ihq parts.2.1
    simp only [Expr.tokens, List.append_assoc]
    exact testWords_tail negated (by decide) ihq.enclosed _ (ihi.enclosedIf _)
  like item pattern escape negated ihi ihp ihe g := by
    have parts := down _ g
    simp only [Node.parts, List.forall_mem_cons, List.forall_mem_map, Option.mem_toList] at parts
    have ihi := ihi parts.1
    have ihp := ihp parts.2.1
    have ihe := fun e he => ihe e he (parts.2.2 e he)
    rw [Expr.like_tokens, List.append_assoc (enclosedIf _ (item.tokens d o))]
    have like : d.Tail ok (testWords negated "LIKE" ++
        enclosedIf pattern.enclosedInTest (pattern.tokens d o)) :=
      testWords_tail negated (by decide) (ihp.enclosedIf _)
    have test := like _ (ihi.enclosedIf item.enclosedInTest)
    exact Dialect.Tail.optionalClause (by simp) (by decide) (phrases_option ihe) _ test
  case operand whens otherwise type iho ihw ihe g := by
    have parts := down _ g
    simp only [Node.parts, List.forall_mem_append, List.forall_mem_map, List.forall_mem_flatMap,
      List.forall_mem_cons, Option.mem_toList] at parts
    have iho := fun e he => iho e he (parts.1.1 e he)
    have ihw := fun w hw => (ihw w hw).imp (· (parts.1.2 w hw).1) (· (parts.1.2 w hw).2.1)
    have ihe := fun e he => ihe e he (parts.2 e he)
    have «case» : d.PhraseOf ok [.word "CASE"] := .keyword (by decide)
    have «end» : d.PhraseOf ok [.word "END"] := .keyword (by decide)
    have operands : d.Tail ok (operand.toList.flatMap fun e => .space :: e.tokens d o) := by
      cases operand with
      | none => exact .nil
      | some e => simpa using Dialect.Tail.spaced (iho e rfl)
    have arms : d.Tail ok (whens.map (Expr.armTokens d o)).flatten :=
      .flatten <| List.forall_mem_map.2 fun w hw => by
        rw [Expr.armTokens, Token.arm, List.append_assoc]
        exact (Dialect.Tail.clause (by simp) (by decide) (ihw w hw).1).append
          (.clause (by simp) (by decide) (ihw w hw).2)
    have others : d.Tail ok (optionalClause ["ELSE"] (otherwise.map (Expr.tokens d o))) :=
      .optionalClause (by simp) (by decide) (phrases_option ihe)
    rw [Expr.case_tokens]
    exact (((operands.append arms).append others).append (.spaced «end»)) _ «case»
  fragment text _ := .solid (.verbatim text)
  block q ihp ihs ihj ihw ihg ihh iho ihl ihk g := by
    have parts := down _ g
    simp only [Node.parts, List.forall_mem_append, List.forall_mem_map, Option.mem_toList] at parts
    obtain ⟨⟨⟨⟨⟨⟨⟨⟨gp, gs⟩, gj⟩, gw⟩, gg⟩, gh⟩, go⟩, gl⟩, gk⟩ := parts
    have ihj := fun j hj => by
      have parts := down _ (gj j hj)
      simp only [Node.parts, List.forall_mem_cons, List.forall_mem_map, Option.mem_toList] at parts
      exact (ihj j hj).imp (· parts.1) fun ih e he => ih e he (parts.2 e he)
    have ihp := fun p hp => ihp p hp (gp p hp)
    have ihs := fun s hs => ihs s hs (gs s hs)
    have ihw := fun e he => ihw e he (gw e he)
    have ihg := fun e he => ihg e he (gg e he)
    have ihh := fun e he => ihh e he (gh e he)
    have iho := fun t ht => iho t ht (go t ht)
    have ihl := fun e he => ihl e he (gl e he)
    have ihk := fun e he => ihk e he (gk e he)
    rw [q.tokens_eq]
    refine Dialect.assemble_phrase hd ?_ (phrases_map ihs) ?_ (phrases_option ihw)
      (phrases_map ihg) (phrases_option ihh) ?_ (phrases_option ihl) (phrases_option ihk)
    · exact phrases_map fun p hp => projectionAlias_tail p.expr p.aliasName _ (ihp p hp)
    · refine List.forall_mem_map.2 fun j hj => ?_
      have join : ∀ w ∈ joinWords j.kind, w ∈ keywords := by cases j.kind <;> decide
      exact (Dialect.Tail.clause (by cases j.kind <;> simp [joinWords]) join (ihj j hj).1).append
        (.optionalClause (by simp) (by decide) (phrases_option (ihj j hj).2))
    · refine phrases_map fun t ht => ?_
      have descending : d.PhraseOf ok [.word "DESC"] := .keyword (by decide)
      split
      · simpa using iho t ht
      · exact (iho t ht).spaced descending
  table name schema aliasName _ := by
    have table : d.PhraseOf ok (qualified (givenName schema) (.name name)) := .qualified _ (.name name)
    simp only [Source.tokens]
    split
    · exact Dialect.aliased_tail _ _ table
    · simpa using table
  derived q aliasName ih g :=
    Dialect.aliased_phrase _ (ih (down _ g _ (by simp [Node.parts]))).enclosed
  tableFunction call ih g := by
    have ih : ∀ e ∈ call.arguments, d.PhraseOf ok (e.tokens d o) :=
      fun e he => ih e he (down _ g _ (List.mem_map_of_mem he))
    have head := Dialect.functionToken_solid (d := d) call.isBuiltIn call.name
    rw [call.tokens_eq]
    exact Dialect.aliased_phrase _ (.qualifiedCall _ head (.enclosedItems (phrases_map ih)))
  set operation ihl ihr g := by
    have parts := down _ g
    simp only [Node.parts, List.forall_mem_cons] at parts
    have ihl := ihl parts.1
    have ihr := ihr parts.2.1
    rw [operation.tokens_eq, List.append_assoc]
    refine Dialect.aliased_phrase _ (Dialect.PhraseOf.enclosed ?_)
    exact Dialect.Tail.clause (by simp)
      (Dialect.setWords_keyword hd operation.operator operation.distinct)
      (Dialect.operandTokens_phrase _ ihr) _ (Dialect.operandTokens_phrase _ ihl)

end Step

theorem phrase_step (hd : d.BuiltIn) (o : Options) :
    TreeStep (fun e => d.Phrase (e.tokens d o)) (fun q => d.Phrase (q.tokens d o))
      (fun s => d.Phrase (s.tokens d o)) := by
  have enclosed (ts : List Token) : IsUnmarked (Token.enclosed ts) := fun t ht => by cases ht; rfl
  have step := phraseOf_step (G := fun _ => True) hd o (fun _ _ _ _ => trivial) enclosed
    fun e _ direct => unmarked_operand hd direct
  simpa using step

end SelectCompiler
