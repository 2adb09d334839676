import Mathlib.Data.List.Infix
import SelectCompiler.Proofs.Acceptance

/-!
The written form of a node stands in that of its tree. Main statement: a query that is compiled says
what each of its nodes says, in one piece, with the placeholders numbered on.
-/

namespace SelectCompiler

open Token (enclosed enclosedIf listed qualified optionalClause listClause)

variable {d : Dialect} {o : Options}

/-! ### Parts of token lists -/

section Infix

variable {x a b : List Token}

theorem infix_left (h : x <:+: a) : x <:+: a ++ b := h.trans (List.infix_append [] a b)

theorem infix_right (h : x <:+: b) : x <:+: a ++ b := by
  simpa using h.trans (List.infix_append a b [])

theorem infix_enclosed (h : x <:+: a) : x <:+: enclosed a :=
  List.infix_cons (infix_left h)

theorem infix_enclosedIf (needed : Bool) (h : x <:+: a) : x <:+: enclosedIf needed a := by
  cases needed
  · exact h
  · exact infix_enclosed h

theorem infix_listed {tss : List (List Token)} (h : x ∈ tss) : x <:+: listed tss := by
  induction tss with
  | nil => cases h
  | cons ts tss ih =>
    cases tss with
    | nil => simpa [listed] using List.mem_singleton.1 h ▸ List.infix_rfl
    | cons us tss =>
      have split : listed (ts :: us :: tss) =
          ts ++ [Token.symbol ",", .space] ++ listed (us :: tss) := by
        simp [listed]
      rw [split]
      rcases List.mem_cons.1 h with rfl | h
      · exact infix_left (infix_left List.infix_rfl)
      · exact infix_right (ih h)

theorem infix_optionalClause (keywords : List String) {content : Option (List Token)}
    (h : x ∈ content) : x <:+: optionalClause keywords content := by
  obtain rfl := Option.mem_def.1 h
  exact infix_right List.infix_rfl

theorem infix_listClause (keywords : List String) {tss : List (List Token)} (h : x ∈ tss) :
    x <:+: listClause keywords tss := by
  cases tss with
  | nil => cases h
  | cons ts tss => exact infix_right (infix_listed h)

end Infix

/-! ### Limit and offset -/

theorem infix_fetched (which : String) {x : List Token} {limit : Option (List Token)}
    (h : x ∈ limit) : x <:+: PagingForm.tokens.fetched which limit := by
  obtain rfl := Option.mem_def.1 h
  exact infix_left (infix_right List.infix_rfl)

theorem infix_paging {form : PagingForm} {x : List Token} {limit offset : Option (List Token)}
    (h : x ∈ limit ∨ x ∈ offset) : x <:+: form.tokens limit offset := by
  cases form with
  | offsetLimit =>
    exact h.elim (fun h => infix_right (infix_optionalClause _ h))
      fun h => infix_left (infix_optionalClause _ h)
  | limitOffset rows =>
    refine h.elim (fun h => ?_) fun h => infix_right (infix_optionalClause _ h)
    obtain rfl := Option.mem_def.1 h
    exact infix_left (infix_right List.infix_rfl)
  | fetch =>
    cases offset with
    | none => exact h.elim (infix_fetched _) nofun
    | some k =>
      rcases h with h | h
      · exact infix_right (List.infix_cons (List.infix_cons (infix_fetched _ h)))
      · obtain rfl := Option.some.inj h
        exact infix_left (infix_right List.infix_rfl)

/-- Limit and offset are written, in front or at the end. -/
theorem Dialect.infix_pagingTokens (hd : d.BuiltIn) {x : List Token}
    {limit offset : Option (List Token)} (h : x ∈ limit ∨ x ∈ offset) :
    x <:+: d.frontTokens limit offset ∨ x <:+: d.backTokens limit offset := by
  cases offset with
  | some k =>
    refine .inr ?_
    cases limit <;> exact infix_paging h
  | none =>
    obtain rfl := h.elim Option.mem_def.1 nofun
    have leading : x <:+: [Token.word "TOP", .symbol "("] ++ x ++ [Token.symbol ")", .space] :=
      infix_left (infix_right List.infix_rfl)
    have trailing : x <:+: d.paging.tokens (some x) none := infix_paging (.inl rfl)
    cases hd with
    | sqlServer schema => exact .inl leading
    | _ => exact .inr trailing

/-- The written parts of a block in the order of its fields. -/
def Clauses.parts (c : Clauses) : List (List Token) :=
  c.projections ++ c.sources ++ c.joins ++ c.predicate.toList ++ c.groupBy ++ c.having.toList ++
    c.orderings ++ c.limit.toList ++ c.offset.toList

theorem Dialect.infix_assemble (hd : d.BuiltIn) {c : Clauses} {x : List Token}
    (h : x ∈ c.parts) : x <:+: d.assemble c := by
  have nonempty {tss : List (List Token)} (h : x ∈ tss) : tss.isEmpty = false := by
    cases tss <;> simp at h ⊢
  simp only [Clauses.parts, List.mem_append, Option.mem_toList, or_assoc] at h
  rw [assemble_eq]
  rcases h with h | h | h | h | h | h | h | h
  · iterate 7 apply infix_left
    rw [projectionTokens, nonempty h]
    exact infix_right (infix_listed h)
  · iterate 6 apply infix_left
    rw [sourceTokens, nonempty h]
    exact infix_right (infix_listClause _ h)
  · iterate 5 apply infix_left
    exact infix_right (List.infix_of_mem_flatten h)
  · iterate 4 apply infix_left
    exact infix_right (infix_optionalClause _ h)
  · iterate 3 apply infix_left
    exact infix_right (infix_listClause _ h)
  · iterate 2 apply infix_left
    exact infix_right (infix_optionalClause _ h)
  · apply infix_left
    rw [orderingTokens, nonempty h]
    exact infix_right (infix_listClause _ h)
  · rcases infix_pagingTokens hd h with front | back
    · iterate 8 apply infix_left
      exact infix_right front
    · exact infix_right back

/-! ### Parts of nodes -/

namespace Node

def tokens (d : Dialect) (o : Options) : Node → List Token
  | expr e => e.tokens d o
  | block q => q.tokens d o
  | source s => s.tokens d o
  | join j => j.tokens d o

theorem infix_operandTokens (paged : Bool) {x operand : List Token} (h : x <:+: operand) :
    x <:+: d.operandTokens paged operand := by
  unfold Dialect.operandTokens
  split
  · exact infix_left (infix_right h)
  · exact h

theorem infix_aliased (aliasName : String) {x source : List Token} (h : x <:+: source) :
    x <:+: d.aliased aliasName source := infix_left (infix_left h)

theorem infix_binaryTokens (op : BinaryOp) (encloseLeft encloseRight : Bool)
    {x left right : List Token} (h : x <:+: left ∨ x <:+: right) :
    x <:+: d.binaryTokens op encloseLeft encloseRight left right := by
  unfold Dialect.binaryTokens
  split
  · refine List.infix_cons (infix_enclosed ?_)
    exact h.elim (·.trans (infix_listed (by simp))) (·.trans (infix_listed (by simp)))
  · refine h.elim (fun h => infix_left (infix_enclosedIf _ h)) fun h => ?_
    exact infix_right (List.infix_cons (List.infix_cons (List.infix_cons (infix_enclosedIf _ h))))

theorem infix_listedExprs {es : List Expr} {m : Node} (h : m ∈ es.map expr) :
    m.tokens d o <:+: listed (es.map (Expr.tokens d o)) := by
  obtain ⟨e, he, rfl⟩ := List.mem_map.1 h
  exact infix_listed (List.mem_map_of_mem he)

theorem mem_option {e? : Option Expr} {m : Node} (h : m ∈ e?.toList.map expr) :
    m.tokens d o ∈ e?.map (Expr.tokens d o) := by
  obtain ⟨e, he, rfl⟩ := List.mem_map.1 h
  exact Option.mem_map_of_mem _ (Option.mem_toList.1 he)

theorem infix_case (operand : Option Expr) (whens : List (Expr × Expr)) (otherwise : Option Expr)
    (type : SqlType) {m : Node} (h : m ∈ (expr (.case operand whens otherwise type)).parts) :
    m.tokens d o <:+: (Expr.case operand whens otherwise type).tokens d o := by
  simp only [parts, List.mem_append, or_assoc] at h
  rw [Expr.case_tokens, List.cons_append, List.cons_append]
  refine List.infix_cons (infix_left ?_)
  rcases h with h | h | h
  · obtain ⟨e, he, rfl⟩ := List.mem_map.1 h
    rw [Option.mem_toList.1 he]
    exact infix_left (infix_left (List.infix_cons (infix_left List.infix_rfl)))
  · obtain ⟨w, hw, h⟩ := List.mem_flatMap.1 h
    refine infix_left (infix_right (.trans ?_ (List.infix_of_mem_flatten (List.mem_map_of_mem hw))))
    simp only [List.mem_cons, List.not_mem_nil, or_false] at h
    rcases h with rfl | rfl
    · exact infix_left (infix_left (infix_right List.infix_rfl))
    · exact infix_right List.infix_rfl
  · exact infix_right (infix_optionalClause _ (mem_option h))

/-- Every node is written within one of the lists. -/
def Within (d : Dialect) (o : Options) (ms : List Node) (tss : List (List Token)) : Prop :=
  ∀ m ∈ ms, ∃ ts ∈ tss, m.tokens d o <:+: ts

theorem Within.map {α : Type} {f : α → Node} {g : α → List Token}
    (h : ∀ x, (f x).tokens d o <:+: g x) (xs : List α) : Within d o (xs.map f) (xs.map g) := by
  intro m hm
  obtain ⟨x, hx, rfl⟩ := List.mem_map.1 hm
  exact ⟨g x, List.mem_map_of_mem hx, h x⟩

theorem Within.option (e? : Option Expr) :
    Within d o (e?.toList.map expr) (e?.map (Expr.tokens d o)).toList := by
  rw [Option.toList_map]
  exact .map (fun _ => List.infix_rfl) _

theorem Within.append {ms ms' : List Node} {tss tss' : List (List Token)}
    (h : Within d o ms tss) (h' : Within d o ms' tss') : Within d o (ms ++ ms') (tss ++ tss') := by
  intro m hm
  rcases List.mem_append.1 hm with hm | hm
  · obtain ⟨ts, hts, within⟩ := h m hm
    exact ⟨ts, List.mem_append_left _ hts, within⟩
  · obtain ⟨ts, hts, within⟩ := h' m hm
    exact ⟨ts, List.mem_append_right _ hts, within⟩

theorem infix_block (hd : d.BuiltIn) (q : Select) {m : Node} (h : m ∈ (block q).parts) :
    m.tokens d o <:+: q.tokens d o := by
  have projections := Within.map (d := d) (o := o) (f := fun p : Projection => expr p.expr)
    (fun p => infix_left (b := projectionAlias p.expr p.aliasName) List.infix_rfl) q.projections
  have sources := Within.map (d := d) (o := o) (f := source) (fun s => List.infix_rfl) q.sources
  have joins := Within.map (d := d) (o := o) (f := join) (fun j => List.infix_rfl) q.joins
  have groupBy := Within.map (d := d) (o := o) (f := expr) (fun e => List.infix_rfl) q.groupBy
  have orderings := Within.map (d := d) (o := o) (f := fun t : SortTerm => expr t.expr)
    (fun t =>
      infix_left (b := if t.ascending then [] else [Token.space, .word "DESC"]) List.infix_rfl)
    q.orderings
  have parts : Within d o (block q).parts (q.clauses d o).parts :=
    (((((((projections.append sources).append joins).append (.option q.predicate)).append
      groupBy).append (.option q.having)).append orderings).append (.option q.limit)).append
      (.option q.offset)
  obtain ⟨ts, mem, within⟩ := parts m h
  rw [q.tokens_eq]
  exact within.trans (Dialect.infix_assemble hd mem)

/-- A node without faults of its own writes all its parts. -/
theorem infix_parts (hd : d.BuiltIn) {n m : Node} (none : n.ownFaults d o = []) (h : m ∈ n.parts) :
    m.tokens d o <:+: n.tokens d o := by
  cases n with
  | expr e =>
    cases e with
    | column c => cases h
    | literal l => cases h
    | parameter p => cases h
    | fragment text => cases h
    | unary op operand type =>
      obtain rfl := List.mem_singleton.1 h
      cases op with
      | not => exact infix_right (a := [_, _]) (infix_enclosedIf _ List.infix_rfl)
      | negate => exact List.infix_cons (infix_enclosedIf _ List.infix_rfl)
      | isNull => exact infix_left (infix_enclosedIf _ List.infix_rfl)
      | isNotNull => exact infix_left (infix_enclosedIf _ List.infix_rfl)
      | cast target =>
        exact List.infix_cons (infix_enclosed (infix_left (infix_left List.infix_rfl)))
    | binary left op right type =>
      simp only [parts, List.mem_cons, List.not_mem_nil, or_false] at h
      rcases h with rfl | rfl
      · exact infix_binaryTokens op _ _ (.inl List.infix_rfl)
      · exact infix_binaryTokens op _ _ (.inr List.infix_rfl)
    | function call =>
      -- A call without parentheses would drop its arguments, but it has none.
      have sound := FunctionCall.callFaults_eq_nil_iff.1 none
      have calls : call.isNiladic = false := by
        by_contra niladic
        rw [parts, sound.niladic (by simpa using niladic)] at h
        cases h
      rw [tokens, call.tokens_eq, calls]
      exact infix_right (infix_enclosed (infix_listedExprs h))
    | subquery q => exact List.mem_singleton.1 h ▸ infix_enclosed List.infix_rfl
    | «exists» q negated =>
      exact List.mem_singleton.1 h ▸
        infix_right (List.infix_cons (List.infix_cons (infix_enclosed List.infix_rfl)))
    | inList item values negated =>
      simp only [tokens, Expr.tokens, Expr.tokensEach_eq]
      rcases List.mem_cons.1 h with rfl | h
      · exact infix_left (infix_left (infix_enclosedIf _ List.infix_rfl))
      · exact infix_right (infix_enclosed (infix_listedExprs h))
    | inSelect item q negated =>
      simp only [parts, List.mem_cons, List.not_mem_nil, or_false] at h
      rcases h with rfl | rfl
      · exact infix_left (infix_left (infix_enclosedIf _ List.infix_rfl))
      · exact infix_right (infix_enclosed List.infix_rfl)
    | like item pattern escape negated =>
      rw [tokens, Expr.like_tokens]
      rcases List.mem_cons.1 h with rfl | h
      · exact infix_left (infix_left (infix_left (infix_enclosedIf _ List.infix_rfl)))
      · rcases List.mem_cons.1 h with rfl | h
        · exact infix_left (infix_right (infix_enclosedIf _ List.infix_rfl))
        · exact infix_right (infix_optionalClause _ (mem_option h))
    | case operand whens otherwise type => exact infix_case operand whens otherwise type h
  | block q => exact infix_block hd q h
  | source s =>
    cases s with
    | table name schema aliasName => cases h
    | derived q aliasName =>
      exact List.mem_singleton.1 h ▸ infix_aliased _ (infix_enclosed List.infix_rfl)
    | function call =>
      rw [tokens, call.tokens_eq]
      exact infix_aliased _ (infix_right (infix_enclosed (infix_listedExprs h)))
    | set operation =>
      rw [tokens, operation.tokens_eq]
      refine infix_aliased _ (infix_enclosed ?_)
      simp only [parts, List.mem_cons, List.not_mem_nil, or_false] at h
      rcases h with rfl | rfl
      · exact infix_left (infix_left (infix_operandTokens _ List.infix_rfl))
      · exact infix_right (infix_operandTokens _ List.infix_rfl)
  | join j =>
    rcases List.mem_cons.1 h with rfl | h
    · exact infix_left (infix_right List.infix_rfl)
    · exact infix_right (infix_optionalClause _ (mem_option h))

/-- Where nothing is wrong, what a node contains is written within it. -/
theorem infix_contained (hd : d.BuiltIn) {n k : Node} (none : n.faults d o = [])
    (h : n.Contains k) : k.tokens d o <:+: n.tokens d o := by
  induction h with
  | self n => exact List.infix_rfl
  | @part n m k part _ ih =>
    have own : n.ownFaults d o = [] := (faults_eq_nil_iff hd n).1 none n (.self n)
    have parts : m.faults d o = [] := by
      rw [faults_eq_nil_iff hd] at none ⊢
      exact fun k hk => none k (.part part hk)
    exact (ih parts).trans (infix_parts hd own part)

end Node

/-- The text of tokens, the first placeholder having the given position. -/
def Dialect.textOf (d : Dialect) (position : Nat) (ts : List Token) : String :=
  String.join (d.texts position ts)

theorem Dialect.textOf_append (d : Dialect) (position : Nat) (a b : List Token) :
    d.textOf position (a ++ b) = d.textOf position a ++ d.textOf (Token.after position a) b := by
  simp only [textOf, texts_eq, Token.positioned_append, List.map_append, String.join_append]

@[simp] theorem Dialect.textOf_singleton (d : Dialect) (position : Nat) (t : Token) :
    d.textOf position [t] = d.tokenText position t := by
  simp [textOf, texts]

theorem Dialect.textOf_enclosed (n : Nat) (ts : List Token) :
    d.textOf n (enclosed ts) = "(" ++ d.textOf n ts ++ ")" := by
  have split : enclosed ts = [Token.symbol "("] ++ ts ++ [Token.symbol ")"] := rfl
  rw [split, textOf_append, textOf_append, textOf_singleton, textOf_singleton]
  rfl

theorem Dialect.textOf_words (n : Nat) (ws : List String) :
    d.textOf n (Token.words ws) = " ".intercalate ws := by
  induction ws with
  | nil => rfl
  | cons w ws ih =>
    cases ws with
    | nil => exact textOf_singleton d n (.word w)
    | cons v ws =>
      rw [Token.words_cons_cons, textOf_append, textOf_append, textOf_singleton, textOf_singleton,
        String.intercalate_cons_cons, ← ih]
      rfl

theorem Dialect.textOf_clause (n : Nat) (ws : List String) :
    d.textOf n (Token.clause ws) = " " ++ " ".intercalate ws ++ " " := by
  have split : Token.clause ws = [Token.space] ++ Token.words ws ++ [Token.space] := rfl
  rw [split, textOf_append, textOf_append, textOf_words, textOf_singleton, textOf_singleton]
  rfl

theorem Select.compile_sql {s : Select} {out : Command} (h : s.compile d o = .ok out) :
    out.sql = d.textOf 1 (s.tokens d o) := by
  obtain ⟨-, rfl⟩ := compile_ok h
  rfl

/-- The text of a compiled query has that of each of its nodes in it, at the position that the
placeholders before it leave. -/
theorem Select.text_contained (hd : d.BuiltIn) {s : Select} {out : Command}
    (h : s.compile d o = .ok out) {n : Node} (contained : (Node.block s).Contains n) :
    ∃ before after, s.tokens d o = before ++ n.tokens d o ++ after ∧
      out.sql = d.textOf 1 before ++ d.textOf (Token.after 1 before) (n.tokens d o) ++
        d.textOf (Token.after 1 (before ++ n.tokens d o)) after := by
  have none : s.faults d o = [] := (compile_ok h).1
  obtain ⟨before, after, eq⟩ := Node.infix_contained hd (n := .block s) none contained
  have split : s.tokens d o = before ++ n.tokens d o ++ after := eq.symm
  refine ⟨before, after, split, ?_⟩
  rw [compile_sql h, split, Dialect.textOf_append, Dialect.textOf_append]

end SelectCompiler
