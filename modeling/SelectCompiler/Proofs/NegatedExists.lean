import SelectCompiler.Proofs.Reader.Sheltered

/-!
Negated `EXISTS` among the operators. Main statement: an expression and its parts are read from
their texts as what they are if and only if no operator that binds tighter than `NOT` has a
`NOT EXISTS` for an operand; everywhere else it keeps its place.
-/

namespace SelectCompiler

open Token (after enclosedIf)
open ReadState (begin demand runWith stepWith_operand)

variable {d : Dialect} {o : Options} {escapes plus : Bool}

/-- SQL Server joins strings by a plus sign. -/
theorem Dialect.BuiltIn.shows (hd : d.BuiltIn) (op : BinaryOp) :
    d.Shows (d.concatOperator == some "+") op := by
  cases hd <;> exact fun _ => rfl

/-! ### In front of an operator -/

/-- `NOT` is no operand of an operator that binds tighter. -/
theorem run_not_eq_none {p : Pending} (tight : 3 < p.demand) (ps : List Pending)
    (outer : List (Bracket × List Pending)) (ls : List Lexeme) :
    runWith escapes ⟨.operand, p :: ps, outer⟩ (.keyword .not :: ls) = none := by
  have stops : begin (p :: ps) outer (.keyword .not) = none := if_neg (Nat.not_le_of_lt tight)
  rw [runWith, stepWith_operand, stops, Option.bind_none]

/-- A left operand that may have a `NOT` in front of it. -/
def Precedes (escapes : Bool) (q : Nat) (ls : List Lexeme) : Prop :=
  ∃ ps r k, demand ps ≤ 3 ∧ q ≤ k ∧ ∀ rest, Follows k rest →
    runWith escapes ⟨.operand, [], []⟩ (ls ++ rest) = runWith escapes ⟨.ended r k, ps, []⟩ rest

namespace Precedes

variable {q : Nat} {ls : List Lexeme}

theorem ofFits {r : Reading} (h : Fits escapes q ls r) : Precedes escapes q ls := by
  obtain ⟨k, le, reads⟩ := h
  exact ⟨[], r, k, Nat.zero_le 3, le, fun rest => reads [] [] rest (Nat.zero_le k)⟩

theorem notExists {block : List Lexeme} (h : IsBlock block) (q9 : q ≤ 9) :
    Precedes escapes q
      (.keyword .not :: .keyword .exists :: .opening :: (block ++ [Lexeme.closing])) := by
  refine ⟨[.not], .exists block, 9, Nat.le_refl 3, q9, fun rest follows => ?_⟩
  have first : begin [] [] (.keyword .not) = some ⟨.operand, [.not], []⟩ := rfl
  rw [List.cons_append, runWith, stepWith_operand, first, Option.bind_some]
  exact Reads.exists h [.not] [] rest (by decide) follows

theorem operator_not {op : BinaryOp} (h : Precedes escapes op.leftDemand ls) (tight : 3 < op.rank)
    (rest : List Lexeme) :
    runWith escapes ⟨.operand, [], []⟩
      (ls ++ Lexeme.operator op :: .keyword .not :: rest) = none := by
  obtain ⟨ps, r, k, low, le, runs⟩ := h
  have rank := op.rank_le_leftDemand
  rw [runs _ (follows_cons rfl (by omega) _), run_operator le (by omega),
    run_not_eq_none (p := .binary r op) (Nat.lt_succ_of_lt tight)]

theorem like_not (h : Precedes escapes 5 ls) (negated : Bool) (rest : List Lexeme) :
    runWith escapes ⟨.operand, [], []⟩
      (ls ++ (Lexeme.notIf negated ++ Lexeme.keyword .like :: .keyword .not :: rest)) = none := by
  obtain ⟨ps, r, k, low, le, runs⟩ := h
  rw [runs _ (follows_like (by omega) negated _), run_ended_like le (by omega),
    run_not_eq_none (p := .like r negated) (show 3 < 5 by decide)]

end Precedes

/-! ### Operands -/

namespace Expr

variable {e : Expr} {op : BinaryOp}

theorem lexemes_notExists (q : Select) (n : Nat) :
    d.lexemes n ((Expr.exists q true).tokens d o) =
      .keyword .not :: .keyword .exists :: .opening ::
        (d.lexemes n (q.tokens d o) ++ [Lexeme.closing]) := by
  rw [tokens, if_pos rfl, List.cons_append, List.singleton_append,
    Dialect.lexemes_reserved (l := .keyword .not) (by decide), Dialect.lexemes_space,
    Dialect.lexemes_reserved (l := .keyword .exists) (by decide), Dialect.lexemes_space,
    Dialect.lexemes_enclosed]

theorem enclosedOnLeft_exists (q : Select) (negated : Bool) (op : BinaryOp) :
    (Expr.exists q negated).enclosedOnLeft op = false := by
  cases op <;> rfl

theorem enclosedOnRight_exists (q : Select) (negated : Bool) (op : BinaryOp) :
    (Expr.exists q negated).enclosedOnRight op = false := by
  cases op <;> rfl

theorem precedes_test (hd : d.BuiltIn) (legible : (Node.expr e).IsLegible d o)
    (read : e.plain.IsRead escapes plus d o (e.tokens d o)) (n : Nat) :
    Precedes escapes 5 (d.lexemes n (enclosedIf e.enclosedInTest (e.tokens d o))) := by
  cases negated : e.isNotExists with
  | false =>
    rw [← plain_enclosedInTest negated]
    exact .ofFits (read.tested n)
  | true =>
    obtain ⟨q, rfl⟩ := eq_of_isNotExists negated
    have block := (legible.part hd (m := .block q) (by simp [Node.parts])).isBlock hd n
    rw [Dialect.lexemes_enclosedIf, show (Expr.exists q true).enclosedInTest = false from rfl,
      if_neg Bool.false_ne_true, lexemes_notExists]
    exact .notExists block (by omega)

theorem precedes_operator (hd : d.BuiltIn) (legible : (Node.expr e).IsLegible d o)
    (read : e.plain.IsRead escapes plus d o (e.tokens d o)) (op : BinaryOp) (n : Nat) :
    Precedes escapes (op.shown plus).leftDemand
      (d.lexemes n (enclosedIf (e.enclosedOnLeft op) (e.tokens d o))) := by
  have low := (op.shown plus).leftDemand_lt
  cases negated : e.isNotExists with
  | false =>
    rw [← (plain_enclosed fun _ => negated).1]
    exact .ofFits (read.fits_enclosedIf (by omega) _ shown_leftDemand_le n)
  | true =>
    obtain ⟨q, rfl⟩ := eq_of_isNotExists negated
    have block := (legible.part hd (m := .block q) (by simp [Node.parts])).isBlock hd n
    rw [Dialect.lexemes_enclosedIf, enclosedOnLeft_exists, if_neg Bool.false_ne_true,
      lexemes_notExists]
    exact .notExists block (by omega)

/-! ### Exposed operands -/

/-- Where `NOT EXISTS` is an operand of an operator that binds tighter, the reader makes one
negation of everything or stops. -/
theorem run_exposed (hd : d.BuiltIn) (shows : ∀ op, d.Shows plus op)
    (legible : (Node.expr e).IsLegible d o) (unescaped : e.isEscaped = false)
    (parts : ∀ m, .expr m ∈ (Node.expr e).parts → m.plain.IsRead escapes plus d o (m.tokens d o))
    (exposed : e.exposesNot d = true) (n : Nat) :
    runWith escapes ⟨.operand, [], []⟩ (d.lexemes n (e.tokens d o)) = none ∨
      ∃ r, runWith escapes ⟨.operand, [], []⟩ (d.lexemes n (e.tokens d o)) = some (.not r) := by
  have exist {q : Select} (hq : .expr (.exists q true) ∈ (Node.expr e).parts) :
      (Expr.exists q false).IsRead escapes plus d o
        (.word "EXISTS" :: .space :: Token.enclosed (q.tokens d o)) :=
    .exist (((legible.part hd hq).part hd (by simp [Node.parts])).isBlock hd)
  cases e with
  | unary u operand type =>
    cases u with
    | negate =>
      obtain ⟨q, rfl⟩ := eq_of_isNotExists exposed
      refine .inl ?_
      have first : begin [] [] (.operator .subtract) = some ⟨.operand, [.negate], []⟩ := rfl
      rw [tokens, Dialect.lexemes_minus, Dialect.lexemes_enclosedIf,
        show (Expr.exists q true).enclosedUnderMinus = false from rfl, if_neg Bool.false_ne_true,
        lexemes_notExists, runWith, stepWith_operand, first, Option.bind_some,
        run_not_eq_none (p := .negate) (by decide)]
    | isNull =>
      obtain ⟨q, rfl⟩ := eq_of_isNotExists exposed
      exact .inr ⟨_, (((exist (by simp [Node.parts])).isNull type).not .boolean).runWith n⟩
    | isNotNull =>
      obtain ⟨q, rfl⟩ := eq_of_isNotExists exposed
      exact .inr ⟨_, (((exist (by simp [Node.parts])).isNotNull type).not .boolean).runWith n⟩
    | _ => cases exposed
  | binary left op right type =>
    obtain ⟨⟨infix', tight⟩, operand⟩ : (d.calls op = false ∧ 3 < op.rank) ∧
        (left.isNotExists = true ∨ right.isNotExists = true) := by
      simpa [exposesNot] using exposed
    have left' := parts left (by simp [Node.parts])
    have right' := parts right (by simp [Node.parts])
    cases second : right.isNotExists with
    | true =>
      obtain ⟨q, rfl⟩ := eq_of_isNotExists second
      have front := precedes_operator hd (legible.part hd (by simp [Node.parts])) left' op n
      refine .inl ?_
      rw [tokens, Dialect.lexemes_infixTokens _ _ _ _ _ (shows op) infix',
        Dialect.lexemes_enclosedIf _ ((Expr.exists q true).enclosedOnRight op),
        enclosedOnRight_exists, if_neg Bool.false_ne_true, lexemes_notExists]
      exact front.operator_not (Nat.lt_of_lt_of_le tight (op.rank_le_shown plus)) _
    | false =>
      obtain ⟨q, rfl⟩ := eq_of_isNotExists (operand.resolve_right (by simp [second]))
      have whole := ((exist (q := q) (by simp [Node.parts])).binaryInfix type (shows op) infix'
        right').not .boolean
      have bare : (Expr.binary (.exists q false) op right.plain type).enclosedUnderNot = false := by
        rw [enclosedUnderNot, rank, decide_eq_false_iff_not]
        omega
      rw [bare, (plain_enclosed fun _ => second).2, Dialect.binaryTokens, ← Dialect.calls, infix',
        if_neg Bool.false_ne_true, enclosedOnLeft_exists] at whole
      rw [tokens, Dialect.binaryTokens, ← Dialect.calls, infix', if_neg Bool.false_ne_true,
        enclosedOnLeft_exists]
      exact .inr ⟨_, whole.runWith n⟩
  | inList item values negated =>
    obtain ⟨q, rfl⟩ := eq_of_isNotExists exposed
    have values' := isRead_each fun m (hm : m ∈ values) =>
      parts m (by simp [Node.parts, hm])
    have whole := ((exist (q := q) (by simp [Node.parts])).inList
      (by simpa using legible.values_ne_nil) values' negated).not .boolean
    rw [tokens, tokensEach_eq]
    exact .inr ⟨_, whole.runWith n⟩
  | inSelect item q negated =>
    obtain ⟨q, rfl⟩ := eq_of_isNotExists exposed
    exact .inr ⟨_, (((exist (by simp [Node.parts])).inSelect
      ((legible.part hd (by simp [Node.parts])).isBlock hd) negated).not .boolean).runWith n⟩
  | like item pattern escape negated =>
    obtain rfl : escape = none := by simpa [isEscaped] using unescaped
    have operand : item.isNotExists = true ∨ pattern.isNotExists = true := by
      simpa [exposesNot] using exposed
    have pattern' := parts pattern (by simp [Node.parts])
    cases second : pattern.isNotExists with
    | true =>
      obtain ⟨q, rfl⟩ := eq_of_isNotExists second
      have front := precedes_test hd (legible.part hd (by simp [Node.parts]))
        (parts item (by simp [Node.parts])) n
      refine .inl ?_
      rw [like_tokens, Option.map_none, Token.optionalClause, List.append_nil,
        Dialect.lexemes_append, Dialect.lexemes_append,
        Dialect.lexemes_testWords (l := .keyword .like) (by decide),
        Dialect.lexemes_enclosedIf _ (Expr.exists q true).enclosedInTest,
        show (Expr.exists q true).enclosedInTest = false from rfl, if_neg Bool.false_ne_true,
        lexemes_notExists, List.append_assoc, List.append_assoc, List.singleton_append]
      exact front.like_not negated _
    | false =>
      obtain ⟨q, rfl⟩ := eq_of_isNotExists (operand.resolve_right (by simp [second]))
      have whole := ((exist (q := q) (by simp [Node.parts])).like pattern' negated).not .boolean
      rw [plain_enclosedInTest second] at whole
      rw [like_tokens, Option.map_none, Token.optionalClause, List.append_nil]
      exact .inr ⟨_, whole.runWith n⟩
  | _ => cases exposed

theorem reading_ne_not {join : BinaryOp → Reading → Reading → Reading}
    (top : ∀ op x y, ∃ l r, join op x y = .binary l op r) (unescaped : e.isEscaped = false)
    (exposed : e.exposesNot d = true) (n : Nat) (r : Reading) :
    (e.readingBy join d o n).shown plus ≠ .not r := by
  intro eq
  cases e with
  | unary u operand type =>
    cases u with
    | not => cases exposed
    | _ => cases eq
  | binary left op right type =>
    rw [readingBy] at eq
    split at eq
    · cases eq
    · obtain ⟨x, y, joined⟩ := top op (left.readingBy join d o n)
        (right.readingBy join d o (after n (left.tokens d o)))
      rw [joined] at eq
      cases eq
  | inList item values negated => cases eq
  | inSelect item q negated => cases eq
  | like item pattern escape negated => cases escape <;> cases eq
  | _ => cases exposed

/-! ### Negations that keep their place -/

theorem isSheltered_of_unescaped (shows : ∀ op, d.Shows plus op) (unescaped : e.isEscaped = false)
    (bare : e.exposesNot d = false) : e.IsSheltered escapes plus d where
  shows _ op _ _ _ := shows op
  escaped escaped := absurd escaped (by simp [unescaped])
  not := bare
  escape := by
    cases e with
    | like item pattern escape negated =>
      obtain rfl : escape = none := by simpa [isEscaped] using unescaped
      rfl
    | _ => rfl

/-- All parts of an expression are read as what they are if and only if no `NOT EXISTS` in it is an
operand of a minus sign, of a value operator, of a comparison or of a test. `AND`, `OR`, `NOT`,
calls and lists may have it, in every dialect; a plus sign stands for `||` where the dialect has
one. -/
theorem read_parts_iff_exposesNot (hd : d.BuiltIn)
    (unescaped : ∀ k : Expr, k.Within e → k.isEscaped = false)
    (ordinary : ∀ l ∈ e.leaves .ofFields, l.IsOrdinary) (faultless : e.faults d o = []) (n : Nat) :
    (∀ k : Expr, k.Within e → d.read (String.join (d.texts n (k.tokens d o))) =
      some ((k.readingBy .attach d o n).shown (d.concatOperator == some "+"))) ↔
      ∀ k : Expr, k.Within e → k.exposesNot d = false := by
  have read {k : Expr} (legible : (Node.expr k).IsLegible d o) :
      d.read (String.join (d.texts n (k.tokens d o))) =
        runWith false ⟨.operand, [], []⟩ (d.lexemes n (k.tokens d o)) := by
    rw [Dialect.read, legible.lex hd, Option.bind_some, ReadState.runWith_false]
  have legible : (Node.expr e).IsLegible d o := ⟨faultless, ordinary⟩
  constructor
  · clear faultless ordinary
    induction e using part_induction with
    | step e ih =>
    intro reads
    obtain ⟨own, parts⟩ := forall_within_iff.1 reads
    obtain ⟨unescaped', unescapedParts⟩ := forall_within_iff.1 unescaped
    have bare (m : Expr) (hm : .expr m ∈ (Node.expr e).parts) :
        ∀ k : Expr, k.Within m → k.exposesNot d = false :=
      ih m hm (unescapedParts m hm) (legible.part hd hm) (parts m hm)
    refine forall_within_iff.2 ⟨?_, bare⟩
    by_contra exposed
    rw [Bool.not_eq_false] at exposed
    have sheltered (m : Expr) (hm : .expr m ∈ (Node.expr e).parts) (k : Expr) (hk : k.Within m) :
        k.IsSheltered false _ d :=
      isSheltered_of_unescaped hd.shows (unescapedParts m hm k hk) (bare m hm k hk)
    have parts' (m : Expr) (hm : .expr m ∈ (Node.expr e).parts) :=
      isRead_plain hd (sheltered m hm) (legible.part hd hm)
    rw [read legible] at own
    rcases run_exposed hd hd.shows legible unescaped' parts' exposed n with stops | ⟨r, negation⟩
    · rw [stops] at own
      cases own
    · rw [negation, Option.some.injEq] at own
      exact reading_ne_not Reading.attach_eq_binary unescaped' exposed n r own.symm
  · intro bare k hk
    have inner (k' : Expr) (hk' : k'.Within k) : k'.IsSheltered false _ d :=
      isSheltered_of_unescaped hd.shows (unescaped k' (hk'.trans hk)) (bare k' (hk'.trans hk))
    have legible' := legible.within hd hk
    rw [read legible', (isRead_plain hd inner legible').runWith n, reading_plain hd inner legible']

end Expr

/-- A column behind `AND`, and a test of a `NOT EXISTS` that lacks its parentheses. -/
theorem read_parts_absentRows :
    let absent : Expr := .exists {} true
    let kept : Expr := .binary absent .and (.column ⟨"a", none, .boolean, false⟩) .boolean
    let lost : Expr := .unary .isNull absent .boolean
    Dialect.postgres.read (String.join (Dialect.postgres.texts 1 (kept.tokens .postgres {}))) =
        some (.binary (.not (.exists [.keyword .select, .word "1"])) .and (.atom [.name "a"])) ∧
      String.join (Dialect.postgres.texts 1 (lost.tokens .postgres {})) =
        "NOT EXISTS (SELECT 1) IS NULL" ∧
      ¬∀ k : Expr, k.Within lost →
        Dialect.postgres.read (String.join (Dialect.postgres.texts 1 (k.tokens .postgres {}))) =
          some ((k.readingBy .attach .postgres {} 1).shown false) := by
  intro absent kept lost
  have inAbsent : ∀ k : Expr, k.Within absent →
      k.isEscaped = false ∧ k.exposesNot .postgres = false :=
    Expr.forall_within_iff.2 ⟨⟨rfl, rfl⟩, fun m hm => by simp [absent, Node.parts] at hm⟩
  have inKept : ∀ k : Expr, k.Within kept → k.isEscaped = false ∧ k.exposesNot .postgres = false :=
    Expr.forall_within_iff.2 ⟨⟨rfl, rfl⟩, fun m hm => by
      obtain rfl | rfl : m = absent ∨ m = .column ⟨"a", none, .boolean, false⟩ := by
        simpa [kept, Node.parts] using hm
      · exact inAbsent
      · exact Expr.forall_within_iff.2 ⟨⟨rfl, rfl⟩, fun m hm => by simp [Node.parts] at hm⟩⟩
  have inLost : ∀ k : Expr, k.Within lost → k.isEscaped = false :=
    Expr.forall_within_iff.2 ⟨rfl, fun m hm => by
      obtain rfl : m = absent := by simpa [lost, Node.parts] using hm
      exact fun k hk => (inAbsent k hk).1⟩
  refine ⟨?_, by decide, fun reads => ?_⟩
  · rw [(Expr.read_parts_iff_exposesNot .postgres (fun k hk => (inKept k hk).1) (by decide)
      rfl 1).2 (fun k hk => (inKept k hk).2) kept (.self kept)]
    rfl
  · have none := (Expr.read_parts_iff_exposesNot .postgres inLost (by decide) rfl 1).1 reads lost
      (.self lost)
    cases none

end SelectCompiler
