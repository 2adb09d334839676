import SelectCompiler.Proofs.Reader.Expressions
import SelectCompiler.Proofs.Tree.NodeFaults
import SelectCompiler.Proofs.Tree.NodeLeaves

/-!
`NOT EXISTS` and `ESCAPE` among the operators. Main statement: the tokens of an expression are read
as the expression itself, with `NOT EXISTS` as a negation and `ESCAPE` as an operator, if each of
the two stands only where it needs no parentheses.
-/

namespace SelectCompiler

open Token (after enclosedIf)

variable {d : Dialect} {o : Options}

/-! ### Raw texts and blocks -/

/-- The raw texts of a tree are ordinary words, and none of them is a fragment. -/
def Leaf.IsOrdinary : Leaf → Prop
  | .function _ name isBuiltIn => isBuiltIn = true → SelectCompiler.IsOrdinary name
  | .target (.custom name) => SelectCompiler.IsOrdinary name
  | .fragment _ => False
  | _ => True

instance : (l : Leaf) → Decidable l.IsOrdinary
  | .function _ name isBuiltIn =>
    inferInstanceAs (Decidable (isBuiltIn = true → SelectCompiler.IsOrdinary name))
  | .target (.custom name) => inferInstanceAs (Decidable (SelectCompiler.IsOrdinary name))
  | .fragment _ => inferInstanceAs (Decidable False)
  | .column _ | .literal _ | .parameter _ | .table _ _ | .aliasName _ | .target .boolean
  | .target .int | .target .bigInt | .target .float | .target .decimal | .target .text
  | .target .date | .target .dateTime | .target .binary => inferInstanceAs (Decidable True)

theorem Leaf.IsOrdinary.raw {l : Leaf} (h : l.IsOrdinary) :
    ∀ text ∈ l.rawText?, SelectCompiler.IsOrdinary text := by
  refine forall_rawText? ?_ ?_ ?_
  · rintro schema name rfl
    exact h rfl
  · rintro name rfl
    exact h
  · rintro text rfl
    exact h.elim

theorem ordinary_tokens {ts : List Token} {leaves : List Leaf}
    (contents : Token.contents ts = leaves.flatMap (Leaf.contents d o))
    (h : ∀ l ∈ leaves, l.IsOrdinary) : ∀ t ∈ ts, t.IsOrdinary := by
  intro t ht
  cases t with
  | verbatim text => exact raw_of_leaves contents (fun l hl => (h l hl).raw) ht
  | _ => trivial

theorem isBlock_tokens (hd : d.BuiltIn) {q : Select} (ordinary : ∀ t ∈ q.tokens d o, t.IsOrdinary)
    (n : Nat) : IsBlock (d.lexemes n (q.tokens d o)) where
  head := by
    rw [q.tokens_eq, Dialect.assemble_eq]
    simp only [List.append_assoc, List.cons_append]
    rw [Dialect.lexemes_reserved (l := .keyword .select) (by decide)]
    rfl
  balanced := Dialect.lexemes_balanced hd ((phrase_step hd o).ofSelect q) ordinary n

/-- A node that compiles, with raw texts that are ordinary words. -/
structure Node.IsLegible (d : Dialect) (o : Options) (n : Node) : Prop where
  faultless : n.faults d o = []
  ordinary : ∀ l ∈ n.leaves, l.IsOrdinary

namespace Node.IsLegible

variable {n : Node}

theorem part (h : n.IsLegible d o) (hd : d.BuiltIn) {m : Node} (hm : m ∈ n.parts) :
    m.IsLegible d o where
  faultless := by
    have none := Node.faults_perm (o := o) hd n
    rw [h.faultless] at none
    have parts := (List.append_eq_nil_iff.1 none.nil_eq.symm).2
    exact List.flatMap_eq_nil_iff.1 parts m hm
  ordinary l hl := h.ordinary l ((Node.leaves_perm n).mem_iff.2
    (List.mem_append_right _ (List.mem_flatMap.2 ⟨m, hm, hl⟩)))

theorem own (h : n.IsLegible d o) : ∀ l ∈ n.ownLeaves, l.IsOrdinary := fun l hl =>
  h.ordinary l ((Node.leaves_perm n).mem_iff.2 (List.mem_append_left _ hl))

theorem functionToken {call : FunctionCall} (h : (Node.expr (.function call)).IsLegible d o) :
    (Dialect.functionToken call.isBuiltIn call.name).IsOrdinary := by
  have named := h.own _ List.mem_cons_self
  cases builtIn : call.isBuiltIn with
  | true => exact named builtIn
  | false => trivial

theorem typeToken {target : SqlType} {operand : Expr} {type : SqlType}
    (h : (Node.expr (.unary (.cast target) operand type)).IsLegible d o) :
    (d.typeToken target).IsOrdinary := by
  have named := h.own _ List.mem_cons_self
  cases target with
  | custom name => exact named
  | _ => trivial

theorem values_ne_nil {item : Expr} {values : List Expr} {negated : Bool}
    (h : (Node.expr (.inList item values negated)).IsLegible d o) : values ≠ [] := by
  have none := h.faultless
  simp only [Node.faults, Expr.faults, List.append_eq_nil_iff] at none
  exact fun empty => by simp [empty] at none

theorem whens_ne_nil {operand otherwise : Option Expr} {whens : List (Expr × Expr)}
    {type : SqlType} (h : (Node.expr (.case operand whens otherwise type)).IsLegible d o) :
    whens ≠ [] := by
  have none := h.faultless
  simp only [Node.faults, Expr.case_faults, List.append_eq_nil_iff] at none
  exact fun empty => by simp [empty] at none

theorem isBlock {q : Select} (h : (Node.block q).IsLegible d o) (hd : d.BuiltIn) (n : Nat) :
    IsBlock (d.lexemes n (q.tokens d o)) :=
  isBlock_tokens hd (ordinary_tokens ((contents_step hd o).ofSelect q h.faultless) fun l hl =>
    h.ordinary l ((perm_step hd).ofSelect q |>.mem_iff.1 hl)) n

theorem within {e k : Expr} (h : (Node.expr e).IsLegible d o) (hd : d.BuiltIn)
    (hk : k.Within e) : (Node.expr k).IsLegible d o := by
  induction hk with
  | self => exact h
  | part hm _ ih => exact ih (h.part hd hm)

theorem lex {e : Expr} (h : (Node.expr e).IsLegible d o) (hd : d.BuiltIn) (n : Nat) :
    d.lex (String.join (d.texts n (e.tokens d o))) = some (d.lexemes n (e.tokens d o)) :=
  Dialect.lex_phrase hd ((phrase_step hd o).ofExpr e)
    (ordinary_tokens ((contents_step hd o).ofExpr e h.faultless) fun l hl =>
      h.ordinary l (((perm_step hd).ofExpr e).mem_iff.1 hl)) n

end Node.IsLegible

/-! ### Negated `EXISTS` and `ESCAPE` -/

namespace Expr

def isNotExists : Expr → Bool
  | .exists _ negated => negated
  | _ => false

def isEscaped : Expr → Bool
  | .like _ _ escape _ => escape.isSome
  | _ => false

/-- Whether an operator that binds tighter than `NOT` has a bare `NOT EXISTS` for an operand. -/
def exposesNot (d : Dialect) : Expr → Bool
  | .unary .negate e _ | .unary .isNull e _ | .unary .isNotNull e _ => e.isNotExists
  | .binary left op right _ =>
    !d.calls op && decide (3 < op.rank) && (left.isNotExists || right.isNotExists)
  | .inList item _ _ | .inSelect item _ _ => item.isNotExists
  | .like item pattern escape _ =>
    item.isNotExists || pattern.isNotExists || escape.any isNotExists
  | _ => false

/-- Whether `ESCAPE` has a bare operand that does not bind tighter than the tests. -/
def exposesEscape : Expr → Bool
  | .like _ _ (some escape) _ => escape.enclosedInTest
  | _ => false

/-- A test in front of `ESCAPE`; this is no call that a text can have. -/
def escaping (test : Expr) : Expr :=
  .function ⟨"ESCAPE", none, true, false, false, [], [test], .boolean⟩

mutual

/-- The expression with `NOT` and `ESCAPE` as operators of their own. -/
def plain : Expr → Expr
  | .column c => .column c
  | .literal l => .literal l
  | .parameter p => .parameter p
  | .unary op operand type => .unary op operand.plain type
  | .binary left op right type => .binary left.plain op right.plain type
  | .function ⟨name, schema, isBuiltIn, isNiladic, isNullable, propagatesNull, arguments, type⟩ =>
    .function ⟨name, schema, isBuiltIn, isNiladic, isNullable, propagatesNull,
      plainEach arguments, type⟩
  | .subquery q => .subquery q
  | .exists q false => .exists q false
  | .exists q true => .unary .not (.exists q false) .boolean
  | .inList item values negated => .inList item.plain (plainEach values) negated
  | .inSelect item q negated => .inSelect item.plain q negated
  | .like item pattern none negated => .like item.plain pattern.plain none negated
  | .like item pattern (some escape) negated =>
    .like (.escaping (.like item.plain pattern.plain none negated)) escape.plain none false
  | .case operand whens otherwise type =>
    .case (plainOption operand) (plainWhens whens) (plainOption otherwise) type
  | .fragment text => .fragment text

def plainEach : List Expr → List Expr
  | [] => []
  | e :: es => e.plain :: plainEach es

def plainWhens : List (Expr × Expr) → List (Expr × Expr)
  | [] => []
  | (condition, result) :: whens => (condition.plain, result.plain) :: plainWhens whens

def plainOption : Option Expr → Option Expr
  | none => none
  | some e => some e.plain

end

@[simp] theorem plainEach_eq (es : List Expr) : plainEach es = es.map plain := by
  induction es with
  | nil => rfl
  | cons e es ih => rw [plainEach, ih, List.map_cons]

@[simp] theorem plainWhens_eq (ws : List (Expr × Expr)) :
    plainWhens ws = ws.map fun w => (w.1.plain, w.2.plain) := by
  induction ws with
  | nil => rfl
  | cons w ws ih => rw [plainWhens, ih, List.map_cons]

@[simp] theorem plainOption_eq (e? : Option Expr) : plainOption e? = e?.map plain := by
  cases e? <;> rfl

theorem function_plain (call : FunctionCall) :
    (Expr.function call).plain =
      .function { call with arguments := call.arguments.map plain } := by
  cases call
  rw [plain, plainEach_eq]

theorem eq_of_isNotExists {e : Expr} (h : e.isNotExists = true) : ∃ q, e = .exists q true := by
  cases e with
  | «exists» q negated => exact ⟨q, by rw [show negated = true from h]⟩
  | _ => cases h

/-! ### Parentheses around plain expressions -/

variable {e : Expr} {op : BinaryOp}

theorem plain_rank (e : Expr) : e.plain.rank = if e.isNotExists then 3 else e.rank := by
  cases e with
  | «exists» q negated => cases negated <;> rfl
  | like item pattern escape negated => cases escape <;> rfl
  | unary op operand type => cases op <;> rfl
  | function call => cases call; rfl
  | _ => rfl

theorem plain_isBinary (op : BinaryOp) (e : Expr) : e.plain.isBinary op = e.isBinary op := by
  cases e with
  | «exists» q negated => cases negated <;> rfl
  | like item pattern escape negated => cases escape <;> rfl
  | function call => cases call; rfl
  | _ => rfl

theorem plain_mixesWith (op : BinaryOp) (e : Expr) : e.plain.mixesWith op = e.mixesWith op := by
  cases e with
  | «exists» q negated => cases negated <;> rfl
  | like item pattern escape negated => cases escape <;> rfl
  | function call => cases call; rfl
  | _ => rfl

theorem plain_startsWithMinus (e : Expr) : e.plain.startsWithMinus = e.startsWithMinus := by
  cases e with
  | «exists» q negated => cases negated <;> rfl
  | like item pattern escape negated => cases escape <;> rfl
  | unary op operand type => cases op <;> rfl
  | function call => cases call; rfl
  | _ => rfl

theorem plain_enclosedUnderNot (e : Expr) : e.plain.enclosedUnderNot = e.enclosedUnderNot := by
  cases negated : e.isNotExists with
  | false => simp [enclosedUnderNot, plain_rank, negated]
  | true =>
    obtain ⟨q, rfl⟩ := eq_of_isNotExists negated
    rfl

theorem plain_enclosedUnderMinus (h : e.isNotExists = false) :
    e.plain.enclosedUnderMinus = e.enclosedUnderMinus := by
  simp [enclosedUnderMinus, plain_rank, h, plain_startsWithMinus]

theorem plain_enclosedInTest (h : e.isNotExists = false) :
    e.plain.enclosedInTest = e.enclosedInTest := by
  simp [enclosedInTest, plain_rank, h]

/-- `AND` and `OR` bind less tightly than `NOT` does. -/
theorem plain_enclosed (h : 3 < op.rank → e.isNotExists = false) :
    e.plain.enclosedOnLeft op = e.enclosedOnLeft op ∧
      e.plain.enclosedOnRight op = e.enclosedOnRight op := by
  cases negated : e.isNotExists with
  | false =>
    simp [enclosedOnLeft, enclosedOnRight, plain_rank, negated, plain_mixesWith, plain_isBinary]
  | true =>
    obtain ⟨q, rfl⟩ := eq_of_isNotExists negated
    have low : ¬3 < op.rank := fun high => by simp [h high] at negated
    cases op <;> first | exact ⟨rfl, rfl⟩ | exact absurd (by decide) low

/-! ### Reading `ESCAPE` -/

theorem after_escaping (n : Nat) (test : Expr) :
    after n ((escaping test).tokens d o) = after n (test.tokens d o) := by
  rw [escaping, FunctionCall.tokens_eq]
  have word : Token.qualified (d.schemaOf true none) (Dialect.functionToken true "ESCAPE") =
      [.verbatim "ESCAPE"] := rfl
  simp [word, Token.listed, Token.after_cons, Token.binding?]

theorem escaping_reading (join : BinaryOp → Reading → Reading → Reading) (n : Nat) (test : Expr) :
    (escaping test).readingBy join d o n = .escaping (test.readingBy join d o n) := by
  have word : Token.qualified (d.schemaOf true none) (Dialect.functionToken true "ESCAPE") =
      [.verbatim "ESCAPE"] := rfl
  have lexemes : d.lexemes n [.verbatim "ESCAPE"] = [.keyword .escape] := by
    rw [Dialect.lexemes_singleton]
    exact (by decide : lexemesOf ("ESCAPE".toList.map .plain) = [.keyword .escape])
  rw [escaping, FunctionCall.reading_eq, word, lexemes]
  rfl

namespace IsRead

variable {escapes plus : Bool} {item pattern escape : Expr} {first second third : List Token}

theorem escaped (plain : ∀ n, ((item.readingBy .attach d o n).shown plus).isEscaping = false)
    (hi : item.IsRead true plus d o first) (hp : pattern.IsRead true plus d o second)
    (he : escape.IsRead true plus d o third) (bare : escape.enclosedInTest = false)
    (negated : Bool) :
    (Expr.like (.escaping (.like item pattern none negated)) escape none false).IsRead true plus d o
      (enclosedIf item.enclosedInTest first ++ testWords negated "LIKE" ++
        enclosedIf pattern.enclosedInTest second ++ (Token.clause ["ESCAPE"] ++ third)) := by
  have placeholders (n : Nat) :
      after n ((Expr.escaping (.like item pattern none negated)).tokens d o) =
        after (after n first) second := by
    simp [after_escaping, tokens, hi.placeholders, hp.placeholders]
  refine .single (fun n => ?_) (fun n => ?_) fun _ => rfl
  · simp [like_tokens, Token.optionalClause, placeholders, he.placeholders]
  · obtain ⟨i, le, test⟩ := hi.tested n
    obtain ⟨j, le', match'⟩ := hp.tested (after n first)
    obtain ⟨k, le'', last⟩ := he.tested (after (after n first) second)
    rw [bare, enclosedIf] at last
    have whole := test.escape le (plain n) match' le' last le'' negated
    rw [readingBy, escaping_reading, placeholders, readingBy, ← hi.placeholders,
      Dialect.lexemes_append, Dialect.lexemes_append, Dialect.lexemes_append,
      Dialect.lexemes_append, Dialect.lexemes_testWords (l := .keyword .like) (by decide),
      Dialect.lexemes_clause (l := .keyword .escape) (by decide)]
    simp only [Token.after_append, Token.after_enclosedIf, Token.after_testWords,
      Token.after_clause, List.append_assoc, List.singleton_append]
    exact whole.fits (by simp [Expr.shownRank, Expr.rank])

end IsRead

/-- A test in front of `ESCAPE` is none that a tree says by itself. -/
theorem isEscaping_plain {plus : Bool} (legible : (Node.expr e).IsLegible d o) (n : Nat) :
    ((e.plain.readingBy .attach d o n).shown plus).isEscaping = false := by
  cases e with
  | literal l =>
    rw [plain, readingBy]
    unfold Reading.constant
    split <;> rfl
  | unary u operand type => cases u <;> rfl
  | binary left op right type =>
    rw [plain, readingBy]
    split
    · rfl
    · obtain ⟨l, r, eq⟩ := Reading.attach_eq_binary op (left.plain.readingBy .attach d o n)
        (right.plain.readingBy .attach d o (after n (left.plain.tokens d o)))
      rw [eq]
      rfl
  | function call =>
    have ordinary : (Dialect.functionToken call.isBuiltIn call.name).IsOrdinary :=
      legible.functionToken
    obtain ⟨-, atomic⟩ := Dialect.function_atomic ordinary (d.schemaOf call.isBuiltIn call.schema) n
    rw [function_plain, FunctionCall.reading_eq]
    split
    · rfl
    · rw [Reading.shown]
      unfold Reading.isEscaping
      split
      · rename_i eq
        rw [Reading.call.injEq] at eq
        rw [eq.1] at atomic
        cases atomic
      · rfl
  | «exists» q negated => cases negated <;> rfl
  | like item pattern escape negated => cases escape <;> rfl
  | case operand whens otherwise type =>
    rw [plain, case_reading, Reading.case_shown]
    rfl
  | _ => rfl

/-! ### Reading them -/

/-- Nothing in the expression itself keeps its tokens from being read as they should be. -/
structure IsSheltered (escapes plus : Bool) (d : Dialect) (e : Expr) : Prop where
  shows : ∀ left op right type, e = .binary left op right type → d.Shows plus op
  escaped : e.isEscaped = true → escapes = true
  not : e.exposesNot d = false
  escape : e.exposesEscape = false

theorem isRead_each {escapes plus : Bool} {es : List Expr}
    (h : ∀ e ∈ es, e.plain.IsRead escapes plus d o (e.tokens d o)) :
    List.Forall₂ (IsRead escapes plus d o) (es.map (tokens d o)) (es.map plain) := by
  rw [List.forall₂_map_left_iff, List.forall₂_map_right_iff, List.forall₂_same]
  exact h

theorem isRead_plain {escapes plus : Bool} (hd : d.BuiltIn) {e : Expr}
    (h : ∀ k : Expr, k.Within e → k.IsSheltered escapes plus d)
    (legible : (Node.expr e).IsLegible d o) :
    e.plain.IsRead escapes plus d o (e.tokens d o) := by
  induction e using part_induction with
  | step e ih =>
  obtain ⟨own, parts⟩ := forall_within_iff.1 h
  have part (m : Expr) (hm : .expr m ∈ (Node.expr e).parts) :
      m.plain.IsRead escapes plus d o (m.tokens d o) :=
    ih m hm (parts m hm) (legible.part hd hm)
  have option {e? : Option Expr} (mem : ∀ m ∈ e?, .expr m ∈ (Node.expr e).parts) :
      Option.Rel (IsRead escapes plus d o) (e?.map (tokens d o)) (e?.map plain) := by
    cases e? with
    | none => exact .none
    | some m => exact .some (part m (mem m rfl))
  cases e with
  | column c => exact .column c
  | literal l => exact .literal hd l
  | parameter p => exact .parameter hd p
  | unary op operand type =>
    have operand' := part operand (by simp [Node.parts])
    have bare := own.not
    rw [plain]
    cases op with
    | not =>
      rw [tokens, ← plain_enclosedUnderNot]
      exact operand'.not type
    | negate =>
      rw [tokens, ← plain_enclosedUnderMinus bare]
      exact operand'.negate type
    | isNull =>
      rw [tokens, ← plain_enclosedInTest bare]
      exact operand'.isNull type
    | isNotNull =>
      rw [tokens, ← plain_enclosedInTest bare]
      exact operand'.isNotNull type
    | cast target => exact operand'.cast hd type legible.typeToken
  | binary left op right type =>
    have left' := part left (by simp [Node.parts])
    have right' := part right (by simp [Node.parts])
    have bare : (d.calls op = false → 3 < op.rank → left.isNotExists = false) ∧
        (d.calls op = false → 3 < op.rank → right.isNotExists = false) := by
      have none := own.not
      simp only [exposesNot, Bool.and_eq_false_iff, Bool.not_eq_false', decide_eq_false_iff_not,
        Bool.or_eq_false_iff] at none
      grind
    rw [plain, tokens]
    cases call : d.calls op with
    | true => exact .binaryCall type call _ _ left' right'
    | false =>
      rw [← (plain_enclosed (bare.1 call)).1, ← (plain_enclosed (bare.2 call)).2]
      exact .binaryInfix type (own.shows left op right type rfl) call left' right'
  | function call =>
    have niladic : call.isNiladic = true → call.arguments = [] := by
      have none := legible.faultless
      rw [Node.faults, call.faults_eq, List.append_eq_nil_iff] at none
      exact arguments_of_niladic none.1
    rw [function_plain, call.tokens_eq]
    have each := isRead_each fun m hm => part m (by simpa [Node.parts] using hm)
    exact .function { call with arguments := call.arguments.map plain }
      (fun h => by simp [niladic h]) legible.functionToken each
  | subquery q => exact .subquery ((legible.part hd (by simp [Node.parts])).isBlock hd)
  | «exists» q negated =>
    have block := (legible.part hd (by simp [Node.parts])).isBlock (q := q) hd
    cases negated with
    | false => exact .exist block
    | true => exact (IsRead.exist block).not .boolean
  | inList item values negated =>
    rw [plain, tokens, tokensEach_eq, plainEach_eq, ← plain_enclosedInTest own.not]
    exact .inList (part item (by simp [Node.parts])) (by simpa using legible.values_ne_nil)
      (isRead_each fun m hm => part m (by simp [Node.parts, hm])) negated
  | inSelect item q negated =>
    rw [plain, tokens, ← plain_enclosedInTest own.not]
    exact .inSelect (part item (by simp [Node.parts]))
      ((legible.part hd (by simp [Node.parts])).isBlock hd) negated
  | like item pattern escape negated =>
    have bare := own.not
    simp only [exposesNot, Bool.or_eq_false_iff] at bare
    have item' := part item (by simp [Node.parts])
    have pattern' := part pattern (by simp [Node.parts])
    rw [like_tokens, ← plain_enclosedInTest bare.1.1, ← plain_enclosedInTest bare.1.2]
    cases escape with
    | none => simpa [plain, Token.optionalClause] using item'.like pattern' negated
    | some escape =>
      obtain rfl : escapes = true := own.escaped rfl
      have tight : escape.plain.enclosedInTest = false :=
        (plain_enclosedInTest bare.2).trans own.escape
      exact .escaped (fun n => isEscaping_plain (legible.part hd (by simp [Node.parts])) n) item'
        pattern' (part escape (by simp [Node.parts])) tight negated
  | case operand whens otherwise type =>
    have mem (m : Expr) : .expr m ∈ (Node.expr (.case operand whens otherwise type)).parts ↔ _ :=
      Node.mem_case_parts
    have arms : List.Forall₂ (fun ws w => IsRead escapes plus d o ws.1 w.1 ∧
        IsRead escapes plus d o ws.2 w.2)
        (whens.map fun w => (w.1.tokens d o, w.2.tokens d o))
        (whens.map fun w => (w.1.plain, w.2.plain)) := by
      rw [List.forall₂_map_left_iff, List.forall₂_map_right_iff, List.forall₂_same]
      exact fun w hw => ⟨part w.1 ((mem w.1).2 (.inr (.inl ⟨w, hw, .inl rfl⟩))),
        part w.2 ((mem w.2).2 (.inr (.inl ⟨w, hw, .inr rfl⟩)))⟩
    have first : ((operand.map (tokens d o)).toList.flatMap fun ts => .space :: ts) =
        operand.toList.flatMap fun e => .space :: e.tokens d o := by
      cases operand <;> rfl
    have whole := IsRead.case type (option fun m hm => (mem m).2 (.inl hm))
      (by simpa using legible.whens_ne_nil) arms (option fun m hm => (mem m).2 (.inr (.inr hm)))
    rw [case_tokens, plain, plainOption_eq, plainWhens_eq, plainOption_eq]
    rwa [first, List.map_map] at whole
  | fragment text => exact (legible.own (.fragment text) List.mem_cons_self).elim

/-- Without `ESCAPE`, plain expressions are read like those that they stand for. -/
theorem reading_plain {plus : Bool} {join : BinaryOp → Reading → Reading → Reading} (hd : d.BuiltIn)
    {e : Expr} (h : ∀ k : Expr, k.Within e → k.IsSheltered false plus d)
    (legible : (Node.expr e).IsLegible d o) (n : Nat) :
    e.plain.readingBy join d o n = e.readingBy join d o n := by
  induction e using part_induction generalizing n with
  | step e ih =>
  obtain ⟨own, parts⟩ := forall_within_iff.1 h
  have part (m : Expr) (hm : .expr m ∈ (Node.expr e).parts) : IsReadAs join join d o m.plain m :=
    fun n => ⟨((isRead_plain hd (parts m hm) (legible.part hd hm)).placeholders n).symm,
      ih m hm (parts m hm) (legible.part hd hm) n⟩
  have each {es : List Expr} (mem : ∀ m ∈ es, .expr m ∈ (Node.expr e).parts) :
      List.Forall₂ (IsReadAs join join d o) (es.map plain) es := by
    rw [List.forall₂_map_left_iff, List.forall₂_same]
    exact fun m hm => part m (mem m hm)
  have option {e? : Option Expr} (mem : ∀ m ∈ e?, .expr m ∈ (Node.expr e).parts) (n : Nat) :
      (e?.map plain).map (readingBy join d o n) = e?.map (readingBy join d o n) ∧
        after n ((e?.map plain).toList.flatMap (tokens d o)) =
          after n (e?.toList.flatMap (tokens d o)) := by
    cases e? with
    | none => exact ⟨rfl, rfl⟩
    | some m =>
      obtain ⟨placeholders, reading⟩ := part m (mem m rfl) n
      exact ⟨congrArg some reading, by simpa using placeholders⟩
  cases e with
  | unary op operand type =>
    obtain ⟨-, reading⟩ := part operand (by simp [Node.parts]) n
    cases op <;> rw [plain, readingBy, readingBy, reading]
  | binary left op right type =>
    obtain ⟨placeholders, first⟩ := part left (by simp [Node.parts]) n
    obtain ⟨-, second⟩ := part right (by simp [Node.parts]) (after n (left.tokens d o))
    rw [plain, readingBy, readingBy, first, placeholders, second]
  | function call =>
    rw [function_plain, call.reading_eq, FunctionCall.reading_eq,
      readingsBy_congr (each fun m hm => by simpa [Node.parts] using hm) n]
    simp
  | «exists» q negated => cases negated <;> rfl
  | inList item values negated =>
    obtain ⟨placeholders, first⟩ := part item (by simp [Node.parts]) n
    rw [plain, plainEach_eq, readingBy, readingBy, first, placeholders,
      readingsBy_congr (each fun m hm => by simp [Node.parts, hm])]
  | inSelect item q negated =>
    obtain ⟨placeholders, first⟩ := part item (by simp [Node.parts]) n
    rw [plain, readingBy, readingBy, first, placeholders]
  | like item pattern escape negated =>
    cases escape with
    | none =>
      obtain ⟨placeholders, first⟩ := part item (by simp [Node.parts]) n
      obtain ⟨-, second⟩ := part pattern (by simp [Node.parts]) (after n (item.tokens d o))
      rw [plain, readingBy, readingBy, first, placeholders, second]
    | some escape => exact absurd (own.escaped rfl) Bool.false_ne_true
  | case operand whens otherwise type =>
    have mem (m : Expr) : .expr m ∈ (Node.expr (.case operand whens otherwise type)).parts ↔ _ :=
      Node.mem_case_parts
    have arms : List.Forall₂ (fun w w' => IsReadAs join join d o w.1 w'.1 ∧
        IsReadAs join join d o w.2 w'.2) (whens.map fun w => (w.1.plain, w.2.plain)) whens := by
      rw [List.forall₂_map_left_iff, List.forall₂_same]
      exact fun w hw => ⟨part w.1 ((mem w.1).2 (.inr (.inl ⟨w, hw, .inl rfl⟩))),
        part w.2 ((mem w.2).2 (.inr (.inl ⟨w, hw, .inr rfl⟩)))⟩
    obtain ⟨first, placeholders⟩ := option (fun m hm => (mem m).2 (.inl hm)) n
    have second := readingWhens_congr arms (after n (operand.toList.flatMap (tokens d o)))
    have last := fun n => (option (fun m hm => (mem m).2 (.inr (.inr hm))) n).1
    rw [plain, plainOption_eq, plainWhens_eq, plainOption_eq, case_reading, case_reading, first,
      placeholders, second.1, second.2, last]
  | _ => rfl

end Expr

end SelectCompiler
