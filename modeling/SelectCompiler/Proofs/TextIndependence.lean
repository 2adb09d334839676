import SelectCompiler.Proofs.Acceptance
import SelectCompiler.Proofs.Tokens.Characters
import SelectCompiler.Proofs.Tokens.TreeComparison
import SelectCompiler.Proofs.Tree.RevisedNodes

/-!
What a text does not depend on. Main statements: bound values, declared types and what is said about
nulls leave no trace in it; bound constants leave one where a minus sign stands before them, and
nowhere else.
-/

namespace SelectCompiler

/-! ### Texts apart from their bindings -/

/-- Two tokens that are written the same at every position. -/
inductive Token.Alike : Token → Token → Prop where
  | same (t : Token) : Alike t t
  | placeholders (b b' : Binding) : Alike (.placeholder b) (.placeholder b')

namespace Token.Alike

variable {t t' : Token} {ts ts' : List Token}

theorem isSome_binding? (h : Alike t t') : t.binding?.isSome = t'.binding?.isSome := by
  cases h <;> rfl

theorem tokenText_eq (h : Alike t t') (d : Dialect) (position : Nat) :
    d.tokenText position t = d.tokenText position t' := by
  cases h <;> rfl

theorem texts_eq (h : List.Forall₂ Alike ts ts') (d : Dialect) (position : Nat) :
    d.texts position ts = d.texts position ts' := by
  induction h generalizing position with
  | nil => rfl
  | cons h hs ih =>
    rw [Dialect.texts, Dialect.texts, h.tokenText_eq, h.isSome_binding?, ih]

theorem length_bindings (h : List.Forall₂ Alike ts ts') :
    (bindings ts).length = (bindings ts').length := by
  induction h with
  | nil => rfl
  | cons h hs ih =>
    rw [bindings, bindings, List.length_filterMap_eq_countP, List.length_filterMap_eq_countP] at ih ⊢
    rw [List.countP_cons, List.countP_cons, ih, h.isSome_binding?]

end Token.Alike

/-- Texts that are the same but for the bound values. -/
def Comparison.sameText : Comparison where
  alike := Token.Alike
  apart _ _ := False
  unbound t _ := .same t

theorem Select.same_text {d : Dialect} (hd : d.BuiltIn) {o : Options} {r : Revision}
    {sign : Literal → Literal} (fits : Comparison.sameText.Fits d o o r sign) {s s' : Select}
    (h : s.revise r = s'.revise r) {out out' : Command} (ok : s.compile d o = .ok out)
    (ok' : s'.compile d o = .ok out') :
    out.sql = out'.sql ∧ out.parameters.length = out'.parameters.length := by
  obtain ⟨none, rfl⟩ := compile_ok ok
  obtain ⟨-, rfl⟩ := compile_ok ok'
  obtain ⟨-, alike⟩ := (Select.compares hd fits none h).of_never_apart fun _ _ => id
  exact ⟨congrArg String.join (Token.Alike.texts_eq alike d 1), Token.Alike.length_bindings alike⟩

/-! ### Parameters, declared types and nulls -/

/-- Drops the parameters, all declared types but those of constants and casts, and what is said
about nulls. -/
def Revision.withoutParameters : Revision where
  parameter _ := ⟨"", .int 0, .int⟩
  type _ := .int
  flag _ := false

theorem sameText_withoutParameters (d : Dialect) (o : Options) :
    Comparison.sameText.Fits d o o .withoutParameters id where
  literal l l' h := by
    obtain rfl : l = l' := h
    exact .same _
  negated l l' h := by
    obtain rfl : l = l' := h
    exact (Comparison.Compares.single (c := .sameText) (.same (d.literalToken o l)) rfl).enclosedIf _
  parameter p p' _ := .placeholders _ _

section Faults

variable {d : Dialect} {o : Options} {r : Revision}

/-- Except in a block, faults do not depend on what is dropped. -/
theorem Node.ownFaults_revise (kept : r.literal = id) {n : Node} (h : ∀ q, n ≠ .block q) :
    (n.revise r).ownFaults d o = n.ownFaults d o := by
  cases n with
  | expr e =>
    cases e with
    | literal l => rw [revise, Expr.revise, kept]; rfl
    | function call =>
      rw [revise, call.revise_eq]
      simp [ownFaults]
    | inList item values negated => cases values <;> rfl
    | case operand whens otherwise type => cases whens <;> rfl
    | _ => rfl
  | block q => exact absurd rfl (h q)
  | source s =>
    cases s with
    | function call => rw [revise, call.revise_eq]; rfl
    | set operation => rw [revise, operation.revise_eq]; rfl
    | _ => rfl
  | join j => simp [revise, ownFaults, Join.revise]

theorem Source.alias?_revise (s : Source) : (s.revise r).alias? = s.alias? := by
  cases s with
  | function call => rw [call.revise_eq]; rfl
  | set operation => rw [operation.revise_eq]; rfl
  | _ => rfl

theorem Select.aliases_revise (q : Select) :
    (q.revise r).allSources.filterMap Source.alias? = q.allSources.filterMap Source.alias? := by
  have joined : (q.joins.map (Join.revise r)).map Join.source =
      (q.joins.map Join.source).map (Source.revise r) := by
    rw [List.map_map, List.map_map]
    rfl
  rw [q.revise_eq, allSources, allSources, joined, ← List.map_append, List.filterMap_map]
  exact List.filterMap_congr fun s _ => s.alias?_revise

/-- A limit or an offset is a parameter that is bound to something else than a number of rows. -/
def Select.MiscountsRows (q : Select) : Prop :=
  ∃ p, (q.limit = some (.parameter p) ∨ q.offset = some (.parameter p)) ∧
    ¬∃ n, p.value = .int n ∧ 0 ≤ n.toInt

theorem Expr.mayCountRows_of_revise {e e' : Expr}
    (h : e.revise .withoutParameters = e'.revise .withoutParameters) (sound : e.MayCountRows)
    (counted : ∀ p, e' = .parameter p → ∃ n, p.value = .int n ∧ 0 ≤ n.toInt) :
    e'.MayCountRows := by
  cases e' with
  | literal l' =>
    obtain ⟨l, rfl⟩ := revise_eq_literal h
    obtain rfl : l = l' := Expr.literal.inj h
    exact sound
  | parameter p => exact counted p rfl
  | _ => trivial

theorem Select.isSound_of_revise {q q' : Select}
    (h : q.revise .withoutParameters = q'.revise .withoutParameters) (sound : q.IsSound)
    (counted : ¬q'.MiscountsRows) : q'.IsSound := by
  have aliases := eq_of_revise (f := fun q : Select => q.allSources.filterMap Source.alias?)
    aliases_revise h
  rw [q.revise_eq, q'.revise_eq] at h
  injection h with _ _ sources joins _ _ _ _ limit offset
  have counts {e? e?' : Option Expr}
      (h : e?.map (Expr.revise .withoutParameters) = e?'.map (Expr.revise .withoutParameters))
      (sound : ∀ e ∈ e?, e.MayCountRows)
      (counted : ∀ p, e?' = some (.parameter p) → ∃ n, p.value = .int n ∧ 0 ≤ n.toInt) :
      ∀ e ∈ e?', e.MayCountRows := by
    rintro e' rfl
    obtain ⟨e, mem, same⟩ := Option.map_eq_some_iff.1 h
    exact Expr.mayCountRows_of_revise same (sound e mem) fun p eq => counted p (congrArg some eq)
  refine ⟨aliases ▸ sound.aliases, ?_, ?_, ?_⟩
  · intro joined
    have joined : q.joins ≠ [] := by
      rintro none
      rw [none] at joins
      exact joined (List.map_eq_nil_iff.1 joins.symm)
    rintro none
    rw [none] at sources
    exact sound.sources joined (List.map_eq_nil_iff.1 sources)
  · exact counts limit sound.limit fun p eq => by_contra fun wrong =>
      counted ⟨p, .inl eq, wrong⟩
  · exact counts offset sound.offset fun p eq => by_contra fun wrong =>
      counted ⟨p, .inr eq, wrong⟩

/-- Of two nodes that are the same without parameters, both are sound or one miscounts rows. -/
theorem Node.isSound_of_revise (hd : d.BuiltIn) {n n' : Node}
    (h : n.revise .withoutParameters = n'.revise .withoutParameters) (sound : n.IsSound d o) :
    n'.IsSound d o ∨ ∃ q, n' = .block q ∧ q.MiscountsRows := by
  by_cases block : ∃ q, n' = .block q
  · obtain ⟨q', rfl⟩ := block
    cases n with
    | block q =>
      by_cases counted : q'.MiscountsRows
      · exact .inr ⟨q', rfl, counted⟩
      · exact .inl (Select.isSound_of_revise (Node.block.inj h) sound counted)
    | _ => cases h
  · -- All other nodes have the faults of what is left of them without parameters.
    have other : ∀ q, n ≠ .block q := by
      rintro q rfl
      cases n' with
      | block q' => exact block ⟨q', rfl⟩
      | _ => cases h
    refine .inl ((ownFaults_eq_nil_iff hd).1 ?_)
    rw [← ownFaults_revise (r := .withoutParameters) rfl (not_exists.1 block), ← h,
      ownFaults_revise rfl other]
    exact (ownFaults_eq_nil_iff hd).2 sound

end Faults

/-- Queries that differ in parameters, declared types and what is said about nulls have one text and
as many bound values; if only one of them is compiled, the other one miscounts rows. -/
theorem Select.compile_without_parameters {d : Dialect} (hd : d.BuiltIn) (o : Options)
    (s s' : Select) (h : s.revise .withoutParameters = s'.revise .withoutParameters) :
    (∀ out out', s.compile d o = .ok out → s'.compile d o = .ok out' →
      out.sql = out'.sql ∧ out.parameters.length = out'.parameters.length) ∧
    ∀ out fault, s.compile d o = .ok out → s'.compile d o = .error fault →
      ∃ q, (Node.block s').Contains (.block q) ∧ q.MiscountsRows := by
  constructor
  · intro out out' ok ok'
    exact same_text hd (sameText_withoutParameters d o) h ok ok'
  · intro out fault ok failed
    have sound := (faults_eq_nil_iff hd).1 (compile_ok ok).1
    obtain ⟨k', contained, own⟩ :=
      (Node.mem_faults_iff hd (.block s') fault).1 (compile_error failed)
    have h : (Node.block s).revise .withoutParameters = (Node.block s').revise .withoutParameters :=
      congrArg Node.block h
    have plain : Revision.withoutParameters.IgnoresSigns := rfl
    obtain ⟨k, contained', same⟩ := Node.contains_of_revise plain h contained
    rcases Node.isSound_of_revise hd same (sound k contained') with sound | ⟨q, rfl, miscounts⟩
    · rw [(Node.ownFaults_eq_nil_iff hd).2 sound] at own
      cases own
    · exact ⟨q, contained, miscounts⟩

/-- Orders from a day on, so many of them as a parameter says. -/
def firstOrders (name : String) (count : Value) (type : SqlType) (nullable : Bool) : Select :=
  let day : Expr := .column ⟨"day", none, type, nullable⟩
  let earliest : Expr := .function ⟨"LEAST", none, true, false, nullable, [nullable, true],
    [day, .parameter ⟨name, .null, type⟩], type⟩
  { projections := [⟨day, ""⟩]
    sources := [.table "orders" none none]
    predicate := some (.binary earliest .lessThan day type)
    limit := some (.parameter ⟨name, count, type⟩) }

theorem compile_without_parameters_firstOrders :
    (∃ out out', (firstOrders "a" (.int 3) .date true).compile .oracle ⟨false⟩ = .ok out ∧
      (firstOrders "b" (.int 70) .dateTime false).compile .oracle ⟨false⟩ = .ok out' ∧
      out.sql = out'.sql ∧ out.parameters ≠ out'.parameters) ∧
    ∃ q, (Node.block (firstOrders "b" .null .int false)).Contains (.block q) ∧ q.MiscountsRows := by
  constructor
  · have same := Select.compile_without_parameters .oracle ⟨false⟩
      (firstOrders "a" (.int 3) .date true) (firstOrders "b" (.int 70) .dateTime false) rfl
    exact ⟨_, _, rfl, rfl, (same.1 _ _ rfl rfl).1, by decide⟩
  · have same := Select.compile_without_parameters .oracle ⟨false⟩
      (firstOrders "a" (.int 3) .date true) (firstOrders "b" .null .int false) rfl
    exact same.2 _ _ rfl rfl

/-! ### Bound constants -/

/-- Drops the values and types of constants. -/
def Revision.withoutConstants : Revision where
  literal _ := ⟨.null, .int⟩

/-- What is left of a constant behind a minus sign: whether it has a minus sign of its own. -/
def Literal.sign (l : Literal) : Literal :=
  if (Expr.literal l).startsWithMinus then ⟨.int (-1), .int⟩ else ⟨.int 0, .int⟩

theorem Literal.sign_eq_iff {l l' : Literal} :
    l.sign = l'.sign ↔
      (Expr.literal l).enclosedUnderMinus = (Expr.literal l').enclosedUnderMinus := by
  have bare (l : Literal) :
      (Expr.literal l).enclosedUnderMinus = (Expr.literal l).startsWithMinus := rfl
  rw [bare, bare, sign, sign]
  cases (Expr.literal l).startsWithMinus <;> cases (Expr.literal l').startsWithMinus <;> decide

theorem sameText_signs (d : Dialect) :
    Comparison.sameText.Fits d ⟨true⟩ ⟨true⟩ (.finer .withoutConstants Literal.sign)
      Literal.sign where
  literal l l' _ := .placeholders _ _
  negated l l' h := by
    have token : Comparison.sameText.alike (d.literalToken ⟨true⟩ l) (d.literalToken ⟨true⟩ l') :=
      .placeholders _ _
    rw [Literal.sign_eq_iff.1 h]
    exact (Comparison.Compares.single token h).enclosedIf _
  parameter p p' h := by
    cases h
    exact .same _

/-- Texts that are told apart by a parenthesis where the other has a placeholder. -/
def Comparison.parenthesized : Comparison where
  alike := Token.Alike
  apart t t' := ∃ b, t = .symbol "(" ∧ t' = .placeholder b ∨ t = .placeholder b ∧ t' = .symbol "("
  unbound t _ := .same t

theorem parenthesized_fits (d : Dialect) :
    Comparison.parenthesized.Fits d ⟨true⟩ ⟨true⟩ .withoutConstants Literal.sign where
  literal l l' _ := .placeholders _ _
  negated l l' _ := by
    have token : Comparison.parenthesized.alike (d.literalToken ⟨true⟩ l)
        (d.literalToken ⟨true⟩ l') := .placeholders _ _
    have first : Comparison.parenthesized.apart (.symbol "(") (d.literalToken ⟨true⟩ l') :=
      ⟨_, .inl ⟨rfl, rfl⟩⟩
    have second : Comparison.parenthesized.apart (d.literalToken ⟨true⟩ l) (.symbol "(") :=
      ⟨_, .inr ⟨rfl, rfl⟩⟩
    rw [Literal.sign_eq_iff]
    cases (Expr.literal l).enclosedUnderMinus <;> cases (Expr.literal l').enclosedUnderMinus
    · exact .single token rfl
    · exact .inr (.here second _ _)
    · exact .inr (.here first _ _)
    · exact (Comparison.Compares.single token rfl).enclosed
  parameter p p' h := by
    cases h
    exact .same _

namespace Dialect

variable {d : Dialect}

theorem join_texts_head_ne (hd : d.BuiltIn) (position : Nat) (b : Binding) (ts ts' : List Token) :
    String.join (d.texts position (.symbol "(" :: ts)) ≠
      String.join (d.texts position (.placeholder b :: ts')) := by
  intro equal
  obtain ⟨cs, head⟩ := placeholderText_head hd position
  have equal := congrArg String.toList equal
  rw [texts, texts, String.join_cons, String.join_cons, String.toList_append,
    String.toList_append, tokenText, tokenText, head] at equal
  have sign := (List.cons.inj equal).1
  cases hd <;> cases sign

theorem join_texts_ne (hd : d.BuiltIn) {ts ts' : List Token}
    (h : Comparison.parenthesized.Diverge ts ts') (position : Nat) :
    String.join (d.texts position ts) ≠ String.join (d.texts position ts') := by
  induction h generalizing position with
  | here h ts ts' =>
    obtain ⟨b, ⟨rfl, rfl⟩ | ⟨rfl, rfl⟩⟩ := h
    · exact join_texts_head_ne hd position b ts ts'
    · exact (join_texts_head_ne hd position b ts' ts).symm
  | later h rest ih =>
    rw [texts, texts, String.join_cons, String.join_cons, h.tokenText_eq, h.isSome_binding?]
    exact fun equal => ih _ ((String.append_right_inj _).1 equal)

end Dialect

/-- Queries that differ in bound constants have one text if the constants behind minus signs agree on
being negative, and different texts otherwise. -/
theorem Select.compile_without_constants {d : Dialect} (hd : d.BuiltIn) (s s' : Select)
    (h : s.revise .withoutConstants = s'.revise .withoutConstants) {out out' : Command}
    (ok : s.compile d ⟨true⟩ = .ok out) (ok' : s'.compile d ⟨true⟩ = .ok out') :
    (s.revise (.finer .withoutConstants Literal.sign) =
        s'.revise (.finer .withoutConstants Literal.sign) →
      out.sql = out'.sql ∧ out.parameters.length = out'.parameters.length) ∧
    (s.revise (.finer .withoutConstants Literal.sign) ≠
        s'.revise (.finer .withoutConstants Literal.sign) →
      out.sql ≠ out'.sql) := by
  refine ⟨fun signs => same_text hd (sameText_signs d) signs ok ok', fun signs => ?_⟩
  obtain ⟨none, rfl⟩ := compile_ok ok
  obtain ⟨-, rfl⟩ := compile_ok ok'
  rcases Select.compares hd (parenthesized_fits d) none h with ⟨equal, -⟩ | diverge
  · exact absurd equal signs
  · exact Dialect.join_texts_ne hd diverge 1

def negatedConstant (n : Int64) : Select :=
  { projections := [⟨.unary .negate (.literal ⟨.int n, .int⟩) .int, ""⟩] }

/-- The text tells a constant below zero from one above, although neither is in it. -/
theorem compile_without_constants_negatedConstant :
    ∃ below above higher : Command,
      (negatedConstant (-1)).compile .postgres ⟨true⟩ = .ok below ∧
      (negatedConstant 1).compile .postgres ⟨true⟩ = .ok above ∧
      (negatedConstant 2).compile .postgres ⟨true⟩ = .ok higher ∧
      below.sql ≠ above.sql ∧ above.sql = higher.sql := by
  have different := (Select.compile_without_constants .postgres (negatedConstant (-1))
    (negatedConstant 1) rfl rfl rfl).2 fun same => by cases same
  have equal := (Select.compile_without_constants .postgres (negatedConstant 1)
    (negatedConstant 2) rfl rfl rfl).1 rfl
  exact ⟨_, _, _, rfl, rfl, rfl, different, equal.1⟩

end SelectCompiler
