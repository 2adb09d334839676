import SelectCompiler.Proofs.Reader.TreeReading

/-!
Parts of expressions as the reader meets them: enclosed operands, lists and arms, and where a chain
goes on without parentheses.
-/

namespace SelectCompiler

open Token (after clause words enclosed enclosedIf listed qualified)

/-! ### Positions -/

@[simp] theorem Token.after_arm (n : Nat) (condition result : List Token) :
    after n (arm condition result) = after (after n condition) result := by
  simp [arm]

namespace Dialect

variable {d : Dialect} {o : Options}

@[simp] theorem after_operatorToken (n : Nat) (op : BinaryOp) (ts : List Token) :
    after n (d.operatorToken op :: ts) = after n ts := by
  cases op <;> rfl

@[simp] theorem lexemes_enclosed (n : Nat) (ts : List Token) :
    d.lexemes n (enclosed ts) = .opening :: (d.lexemes n ts ++ [Lexeme.closing]) := by
  simp [enclosed]

theorem lexemes_enclosedIf (n : Nat) (needed : Bool) (ts : List Token) :
    d.lexemes n (enclosedIf needed ts) =
      if needed then Lexeme.opening :: (d.lexemes n ts ++ [Lexeme.closing]) else d.lexemes n ts := by
  cases needed with
  | false => rfl
  | true => exact lexemes_enclosed n ts

theorem lexemes_clause {w : String} {l : Lexeme} (h : (w, l) ∈ Lexeme.reserved) (n : Nat) :
    d.lexemes n (clause [w]) = [l] := by
  rw [show clause [w] = [.space, .word w, .space] from rfl, lexemes_space, lexemes_reserved h,
    lexemes_space, lexemes_nil]

theorem lexemes_testWords {w : String} {l : Lexeme} (h : (w, l) ∈ Lexeme.reserved)
    (negated : Bool) (n : Nat) :
    d.lexemes n (testWords negated w) = Lexeme.notIf negated ++ [l] := by
  cases negated with
  | false => exact lexemes_clause h n
  | true =>
    rw [show testWords true w = [.space, .word "NOT", .space, .word w, .space] from rfl,
      lexemes_space, lexemes_reserved (l := .keyword .not) (by decide), lexemes_space,
      lexemes_reserved h, lexemes_space, lexemes_nil]
    rfl

theorem lexemes_isNull (n : Nat) :
    d.lexemes n (.space :: words ["IS", "NULL"]) = [.keyword .is, .keyword .null] := by
  rw [show words ["IS", "NULL"] = [.word "IS", .space, .word "NULL"] from rfl, lexemes_space,
    lexemes_reserved (l := .keyword .is) (by decide), lexemes_space,
    lexemes_reserved (l := .keyword .null) (by decide), lexemes_nil]

theorem lexemes_isNotNull (n : Nat) :
    d.lexemes n (.space :: words ["IS", "NOT", "NULL"]) =
      [.keyword .is, .keyword .not, .keyword .null] := by
  rw [show words ["IS", "NOT", "NULL"] =
      [.word "IS", .space, .word "NOT", .space, .word "NULL"] from rfl, lexemes_space,
    lexemes_reserved (l := .keyword .is) (by decide), lexemes_space,
    lexemes_reserved (l := .keyword .not) (by decide), lexemes_space,
    lexemes_reserved (l := .keyword .null) (by decide), lexemes_nil]

end Dialect

variable {d : Dialect} {o : Options}

/-! ### Binary operators -/

namespace Dialect

variable {op : BinaryOp} (encloseLeft encloseRight : Bool) (left right : List Token) (n : Nat)

theorem lexemes_callTokens (call : d.calls op = true) :
    d.lexemes n (d.binaryTokens op encloseLeft encloseRight left right) =
      .word "CONCAT" :: .opening :: (d.lexemes n left ++
        .comma :: d.lexemes (after n left) right ++ [Lexeme.closing]) := by
  have concat : lexemesOf ("CONCAT".toList.map .plain) = [.word "CONCAT"] := by decide
  have tokens : d.binaryTokens op encloseLeft encloseRight left right =
      .word "CONCAT" :: enclosed (left ++ Token.symbol "," :: .space :: right) := by
    rw [binaryTokens, ← calls, if_pos call]
    simp [listed, List.intercalate_cons_cons]
  rw [tokens, lexemes_word, concat, lexemes_enclosed, lexemes_append, lexemes_comma,
    lexemes_space, List.singleton_append]

theorem lexemes_infixTokens {plus : Bool} (shows : d.Shows plus op) (infix' : d.calls op = false) :
    d.lexemes n (d.binaryTokens op encloseLeft encloseRight left right) =
      d.lexemes n (enclosedIf encloseLeft left) ++ Lexeme.operator (op.shown plus) ::
        d.lexemes (after n left) (enclosedIf encloseRight right) := by
  rw [binaryTokens, ← calls, infix', if_neg Bool.false_ne_true, lexemes_append, lexemes_space,
    lexemes_shown shows, lexemes_space, Token.after_enclosedIf]

@[simp] theorem after_binaryTokens (op : BinaryOp) :
    after n (d.binaryTokens op encloseLeft encloseRight left right) = after (after n left) right := by
  rw [binaryTokens]
  split
  · simp [listed, List.intercalate_cons_cons]
  · simp

end Dialect

namespace Expr

variable {op : BinaryOp} (left right : Expr) (type : SqlType) (n : Nat)

theorem lexemes_binaryCall (call : d.calls op = true) :
    d.lexemes n ((Expr.binary left op right type).tokens d o) =
      .word "CONCAT" :: .opening :: (d.lexemes n (left.tokens d o) ++
        .comma :: d.lexemes (after n (left.tokens d o)) (right.tokens d o) ++ [Lexeme.closing]) := by
  rw [Expr.tokens, Dialect.lexemes_callTokens _ _ _ _ _ call]

theorem lexemes_binaryInfix (spells : d.Spells op) (infix' : d.calls op = false) :
    d.lexemes n ((Expr.binary left op right type).tokens d o) =
      d.lexemes n (enclosedIf (left.enclosedOnLeft op) (left.tokens d o)) ++
        .operator op :: d.lexemes (after n (left.tokens d o))
          (enclosedIf (right.enclosedOnRight op) (right.tokens d o)) := by
  rw [Expr.tokens, Dialect.lexemes_infixTokens _ _ _ _ _ spells.shows infix', op.shown_false]

end Expr

/-! ### Operands -/

/-- The lexemes are read to `r`, and bind at least as tightly as demanded. -/
def Fits (escapes : Bool) (q : Nat) (ls : List Lexeme) (r : Reading) : Prop :=
  ∃ k, q ≤ k ∧ Reads escapes ls r k

variable {escapes plus : Bool}

theorem Reads.fits {ls : List Lexeme} {r : Reading} {q k : Nat} (h : Reads escapes ls r k)
    (le : q ≤ k) : Fits escapes q ls r :=
  ⟨k, le, h⟩

theorem Fits.enclosedIf {q k n : Nat} {ts : List Token} {r : Reading}
    (h : Fits escapes k (d.lexemes n ts) r) (q9 : q ≤ 9) {needed : Bool}
    (open' : needed = false → q ≤ k) :
    Fits escapes q (d.lexemes n (Token.enclosedIf needed ts)) r := by
  obtain ⟨j, le, reads⟩ := h
  rw [Dialect.lexemes_enclosedIf]
  cases needed with
  | true => exact reads.group.fits q9
  | false =>
    have demanded := open' rfl
    exact reads.fits (by omega)

/-! ### Operands of binary operators -/

namespace BinaryOp

theorem runsOn_or_mixes {op inner : BinaryOp} (same : inner.rank = op.rank) :
    op.isComparison = true ∨ op.runsOn inner = true ∨ op.mixesWith inner = true := by
  cases op <;> cases inner <;> first | decide | cases same

theorem isStringOrBitwise_of_rank {op : BinaryOp} (h : 5 < op.rank) :
    op.isStringOrBitwise = false := by
  cases op <;> first | rfl | exact absurd h (by decide)

theorem eq_of_runsOn {op inner : BinaryOp} (low : ¬5 < op.rank) (h : op.runsOn inner = true) :
    inner = op := by
  simpa [runsOn, low] using h

theorem mixesWith_of_runsOn {op a b : BinaryOp} (ha : op.runsOn a = true) (hb : op.runsOn b = true) :
    a.mixesWith b = false := by
  by_cases high : 5 < op.rank
  · have first := isStringOrBitwise_of_rank (rank_of_runsOn ha ▸ high)
    have second := isStringOrBitwise_of_rank (rank_of_runsOn hb ▸ high)
    simp [mixesWith, first, second]
  · obtain rfl := eq_of_runsOn high ha
    obtain rfl := eq_of_runsOn high hb
    simp [mixesWith]

theorem leftDemand_eq_iff {op : BinaryOp} : op.leftDemand = op.rank ↔ op.rank ≠ 4 := by
  cases op <;> decide

theorem leftDemand_lt (op : BinaryOp) : op.leftDemand < 8 := by cases op <;> decide

end BinaryOp

namespace Expr

/-- Whether the expression continues a chain of the operator that stands before it. -/
def continues (d : Dialect) (op : BinaryOp) : Expr → Bool
  | .binary _ inner _ _ => op.runsOn inner && !d.calls inner
  | _ => false

theorem leftDemand_le {op : BinaryOp} {e : Expr} (h : e.enclosedOnLeft op = false) :
    op.leftDemand ≤ e.rank := by
  simp only [enclosedOnLeft, Bool.or_eq_false_iff, Bool.and_eq_false_iff,
    decide_eq_false_iff_not, beq_eq_false_iff_ne] at h
  obtain ⟨⟨rank, comparison⟩, -⟩ := h
  unfold BinaryOp.leftDemand
  split
  · rename_i compares
    have four : op.rank = 4 := by simpa [BinaryOp.isComparison] using compares
    rcases comparison with no | other
    · exact absurd compares (by simp [no])
    · omega
  · omega

theorem rank_of_isBinary {op : BinaryOp} {e : Expr} (h : e.isBinary op = true) :
    e.rank = op.rank ∧ e.mixesWith op = false := by
  cases e with
  | binary left inner right type =>
    obtain rfl : inner = op := by simpa [isBinary] using h
    exact ⟨rfl, by simp [mixesWith, BinaryOp.mixesWith]⟩
  | _ => cases h

/-- An operand on the right goes without parentheses if it binds tighter or is a chain. -/
theorem enclosedOnRight_eq_false {op : BinaryOp} {e : Expr} (h : e.enclosedOnRight op = false) :
    op.rank < e.rank ∨ op.isAssociative = true ∧ e.isBinary op = true := by
  simp only [enclosedOnRight, Bool.or_eq_false_iff, Bool.and_eq_false_iff,
    decide_eq_false_iff_not, beq_eq_false_iff_ne, Bool.not_eq_false', Bool.and_eq_true] at h
  obtain ⟨⟨rank, same | chain⟩, -⟩ := h
  · exact .inl (by omega)
  · exact .inr chain

theorem enclosedOnRight_of_chain {op : BinaryOp} {e : Expr} (associative : op.isAssociative = true)
    (h : e.isBinary op = true) : e.enclosedOnRight op = false := by
  obtain ⟨rank, mixes⟩ := rank_of_isBinary h
  simp [enclosedOnRight, rank, mixes, associative, h]

theorem rank_of_not_binary {e : Expr}
    (h : ¬∃ left op right type, e = .binary left op right type) :
    e.rank = 3 ∨ e.rank = 4 ∨ 8 ≤ e.rank := by
  cases e with
  | binary left op right type => exact absurd ⟨left, op, right, type, rfl⟩ h
  | unary op operand type => cases op <;> simp [rank]
  | _ => simp [rank]

/-- What neither continues the chain nor has parentheses binds tighter than the chain. -/
theorem rank_lt_of_not_continues {op inner : BinaryOp} {e : Expr} (chains : op.leftDemand = op.rank)
    (runs : op.runsOn inner = true) (infix' : d.calls inner = false)
    (h : e.enclosedOnLeft inner = false) (stops : e.continues d op = false) : op.rank < e.rank := by
  simp only [enclosedOnLeft, Bool.or_eq_false_iff, decide_eq_false_iff_not] at h
  obtain ⟨⟨rank, -⟩, mixes⟩ := h
  have same := BinaryOp.rank_of_runsOn runs
  have low := op.rank_lt
  have notNot := op.rank_ne
  have notTest := BinaryOp.leftDemand_eq_iff.1 chains
  by_cases binary : ∃ left middle right type, e = .binary left middle right type
  · obtain ⟨left, middle, right, type, rfl⟩ := binary
    refine Nat.lt_of_not_le fun le => ?_
    have equal : middle.rank = op.rank := by
      simp only [Expr.rank] at rank le
      omega
    by_cases arithmetic : 5 < op.rank
    · have joins : op.runsOn middle = true := by simp [BinaryOp.runsOn, arithmetic, equal]
      have call : d.calls middle = false := by
        rw [Dialect.calls, Bool.and_eq_false_iff, beq_eq_false_iff_ne]
        refine .inl fun eq => ?_
        subst eq
        exact absurd arithmetic (by rw [← equal]; decide)
      simp [continues, joins, call] at stops
    · obtain rfl := BinaryOp.eq_of_runsOn arithmetic runs
      rcases BinaryOp.runsOn_or_mixes equal with compares | joins | mixed
      · exact notTest (by simpa [BinaryOp.isComparison] using compares)
      · obtain rfl := BinaryOp.eq_of_runsOn arithmetic joins
        simp [continues, joins, infix'] at stops
      · simp [Expr.mixesWith, mixed] at mixes
  · have ranks := rank_of_not_binary binary
    omega

/-- Parentheses end a chain, so that what continues it has none. -/
theorem enclosedOnLeft_of_continues {op inner : BinaryOp} {e : Expr}
    (chains : op.leftDemand = op.rank) (runs : op.runsOn inner = true)
    (h : e.continues d op = true) : e.enclosedOnLeft inner = false := by
  cases e with
  | binary left middle right type =>
    obtain ⟨joins, -⟩ : op.runsOn middle = true ∧ _ := by simpa [continues] using h
    have same := BinaryOp.rank_of_runsOn runs
    have equal := BinaryOp.rank_of_runsOn joins
    have compares : inner.isComparison = false := by
      have notTest := BinaryOp.leftDemand_eq_iff.1 chains
      simp [BinaryOp.isComparison, same, notTest]
    have mixes := BinaryOp.mixesWith_of_runsOn runs joins
    simp [enclosedOnLeft, Expr.rank, Expr.mixesWith, compares, mixes, same, equal]
  | _ => cases h

/-! ### Ranks as they are shown -/

/-- The rank of the operator that is shown. -/
def shownRank (plus : Bool) : Expr → Nat
  | .binary _ op _ _ => (op.shown plus).rank
  | e => e.rank

end Expr

namespace BinaryOp

theorem rank_le_shown (plus : Bool) (op : BinaryOp) : op.rank ≤ (op.shown plus).rank := by
  cases op <;> cases plus <;> decide

theorem shown_concat_le (plus : Bool) : (concat.shown plus).rank ≤ 6 := by cases plus <;> decide

theorem mixesWith_concat {inner : BinaryOp} (h : concat.rank < inner.rank) :
    concat.mixesWith inner = true := by
  cases inner <;> first | rfl | exact absurd h (by decide)

theorem eq_concat {inner : BinaryOp} (same : concat.rank = inner.rank)
    (apart : concat.mixesWith inner = false) : inner = concat := by
  revert same apart
  cases inner <;> decide

/-- Chains go on through the same operators where concatenations are shown as sums. -/
theorem shown_rank_of_runsOn {op inner : BinaryOp} (h : op.runsOn inner = true) (plus : Bool) :
    (op.shown plus).rank = (inner.shown plus).rank := by
  cases op <;> cases inner <;> first | rfl | cases h

theorem shown_leftDemand_eq {op : BinaryOp} (h : op.leftDemand = op.rank) (plus : Bool) :
    (op.shown plus).leftDemand = (op.shown plus).rank := by
  cases op <;> cases plus <;> first | rfl | cases h

end BinaryOp

namespace Expr

variable {op : BinaryOp} {e : Expr}

theorem rank_le_shownRank (plus : Bool) (e : Expr) : e.rank ≤ e.shownRank plus := by
  cases e with
  | binary left op right type => exact op.rank_le_shown plus
  | _ => exact Nat.le_refl _

/-- What binds tighter than an operator still does where concatenations are shown as sums: sums do
not stand next to concatenations. -/
theorem shown_lt_shownRank (h : op.rank < e.rank)
    (apart : op = .concat → e.mixesWith .concat = false) :
    (op.shown plus).rank < e.shownRank plus := by
  by_cases concat : op = .concat
  · subst concat
    have sum := BinaryOp.shown_concat_le plus
    have tighter : 8 ≤ e.rank := by
      have five : BinaryOp.concat.rank = 5 := rfl
      by_cases binary : ∃ left inner right type, e = .binary left inner right type
      · obtain ⟨left, inner, right, type, rfl⟩ := binary
        exact absurd (apart rfl) (by simp [mixesWith, BinaryOp.mixesWith_concat h])
      · have ranks := rank_of_not_binary binary
        omega
    have shown := e.rank_le_shownRank plus
    omega
  · rw [BinaryOp.shown_of_ne concat]
    exact Nat.lt_of_lt_of_le h (e.rank_le_shownRank plus)

theorem shown_leftDemand_le (h : e.enclosedOnLeft op = false) :
    (op.shown plus).leftDemand ≤ e.shownRank plus := by
  have least := leftDemand_le h
  by_cases concat : op = .concat
  · subst concat
    have apart : e.mixesWith .concat = false := by
      simp only [enclosedOnLeft, Bool.or_eq_false_iff] at h
      exact h.2
    rw [BinaryOp.shown_leftDemand_eq rfl]
    rcases Nat.lt_or_eq_of_le (show BinaryOp.concat.rank ≤ e.rank from least) with tighter | same
    · exact Nat.le_of_lt (shown_lt_shownRank tighter fun _ => apart)
    · cases e with
      | binary left inner right type =>
        obtain rfl := BinaryOp.eq_concat same apart
        exact Nat.le_refl _
      | unary op operand type => cases op <;> cases same
      | _ => cases same
  · rw [BinaryOp.shown_of_ne concat]
    exact Nat.le_trans least (e.rank_le_shownRank plus)

end Expr

end SelectCompiler
