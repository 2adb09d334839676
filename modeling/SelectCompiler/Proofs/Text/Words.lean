import SelectCompiler.Proofs.Text.PhraseLexemes

/-!
The lexemes of single tokens: keywords, operators, constants and placeholders. Main statements: a
literal is a run of atomic lexemes, behind a minus sign at most, and the parentheses of a phrase
close among its lexemes.
-/

namespace SelectCompiler

open LexState (run)

/-! ### Plus signs in place of `||` -/

/-- The operator that is shown: with `plus`, concatenation looks like a sum. -/
def BinaryOp.shown (plus : Bool) : BinaryOp → BinaryOp
  | concat => if plus then add else concat
  | op => op

namespace BinaryOp

theorem shown_false (op : BinaryOp) : op.shown false = op := by cases op <;> rfl

theorem shown_of_ne {op : BinaryOp} (h : op ≠ .concat) (plus : Bool) : op.shown plus = op := by
  cases op <;> first | rfl | exact absurd rfl h

theorem isComparison_shown (plus : Bool) (op : BinaryOp) :
    (op.shown plus).isComparison = op.isComparison := by
  cases op <;> cases plus <;> rfl

end BinaryOp

namespace Dialect

variable {d : Dialect} {o : Options}

/-! ### Words -/

theorem lexemes_word (n : Nat) (w : String) (ts : List Token) :
    d.lexemes n (.word w :: ts) = lexemesOf (w.toList.map .plain) ++ d.lexemes n ts := by
  rw [lexemes_cons, show Token.after n [.word w] = n from rfl, lexemes_singleton]
  rfl

theorem lexemes_reserved {w : String} {l : Lexeme} (h : (w, l) ∈ Lexeme.reserved) (n : Nat)
    (ts : List Token) : d.lexemes n (.word w :: ts) = l :: d.lexemes n ts := by
  have single : ∀ entry ∈ Lexeme.reserved,
      lexemesOf (entry.1.toList.map .plain) = [entry.2] := by decide
  rw [lexemes_word, single _ h, List.singleton_append]

theorem lexemes_verbatim {text : String} (h : IsOrdinary text) (n : Nat) (ts : List Token) :
    d.lexemes n (.verbatim text :: ts) = .word text :: d.lexemes n ts := by
  rw [lexemes_cons, show Token.after n [.verbatim text] = n from rfl, lexemes_singleton]
  rw [show d.scannedToken (n, .verbatim text) = text.toList.map .plain from rfl, h.lexemes,
    List.singleton_append]

/-- Where strings are joined by the standard operator or by none. -/
def Spells (d : Dialect) (op : BinaryOp) : Prop := op = .concat → d.spelling .concat = "||"

theorem lexemesOf_spelling (op : BinaryOp) :
    lexemesOf (op.spelling.toList.map .plain) = [.operator op] := by
  cases op <;> decide

/-- Where strings are joined by a plus sign, or by the standard operator or by none. -/
def Shows (d : Dialect) (plus : Bool) (op : BinaryOp) : Prop :=
  op = .concat → d.spelling .concat = if plus then "+" else "||"

theorem Spells.shows {op : BinaryOp} (h : d.Spells op) : d.Shows false op := h

theorem lexemes_shown {plus : Bool} {op : BinaryOp} (h : d.Shows plus op) (n : Nat)
    (ts : List Token) :
    d.lexemes n (d.operatorToken op :: ts) = .operator (op.shown plus) :: d.lexemes n ts := by
  have unbound : Token.after n [d.operatorToken op] = n := by cases op <;> rfl
  have scanned : d.scannedToken (n, d.operatorToken op) =
      (op.shown plus).spelling.toList.map .plain := by
    cases op with
    | concat =>
      rw [show d.scannedToken (n, d.operatorToken .concat) =
        (d.spelling .concat).toList.map .plain from rfl, h rfl]
      cases plus <;> rfl
    | _ => rfl
  rw [lexemes_cons, unbound, lexemes_singleton, scanned, lexemesOf_spelling, List.singleton_append]

theorem lexemes_operator {op : BinaryOp} (h : d.Spells op) (n : Nat) (ts : List Token) :
    d.lexemes n (d.operatorToken op :: ts) = .operator op :: d.lexemes n ts := by
  rw [lexemes_shown h.shows, op.shown_false]

/-! ### Constants and placeholders -/

theorem lexemes_placeholder (hd : d.BuiltIn) (n : Nat) (b : Binding) :
    d.lexemes n [.placeholder b] = [.word (d.placeholderText n)] := by
  have signs : ['?', '$', '@', 'p', ':'].all isWordChar = true := by decide
  have wordChars : ∀ c ∈ (d.placeholderText n).toList, isWordChar c = true := by
    intro c hc
    rcases placeholderText_chars hd n c hc with sign | digit
    · exact List.all_eq_true.1 signs c sign
    · exact isWordChar_of_isAlphanum (isAlphanum_of_isDigit digit)
  obtain ⟨cs, eq⟩ := placeholderText_head hd n
  have sign : d.placeholderSign.isAlpha = false := by cases hd <;> rfl
  rw [lexemes_singleton]
  rw [show d.scannedToken (n, .placeholder b) = (d.placeholderText n).toList.map .plain from rfl,
    lexemesOf_word (by simp [eq]) wordChars, eq, Lexeme.ofWord_unreserved sign, ← eq,
    String.ofList_toList]

theorem unsigned_atomic {cs : List Char} (h : IsUnsigned cs) :
    lexemesOf (cs.map .plain) ≠ [] ∧ (lexemesOf (cs.map .plain)).all Lexeme.isAtomic = true := by
  have words : ∀ w ∈ constantWords, lexemesOf (w.toList.map .plain) ≠ [] ∧
      (lexemesOf (w.toList.map .plain)).all Lexeme.isAtomic = true := by decide
  rcases h with ⟨w, hw, rfl⟩ | number
  · exact words w hw
  · rw [lexemesOf_number number]
    exact ⟨by simp, rfl⟩

theorem lexemesOf_signed {cs : List Char} (h : IsUnsigned cs) :
    lexemesOf (('-' :: cs).map .plain) =
      .operator .subtract :: lexemesOf (cs.map .plain) := by
  obtain ⟨c, hc, letter⟩ := unsigned_head h
  refine lexemesOf_minus fun c' hc' => ?_
  rw [List.head?_map, hc] at hc'
  obtain rfl := Scanned.plain.inj (Option.some.inj hc')
  exact operatorChar_of_isAlphanum letter

theorem margin_atomic (hd : d.BuiltIn) : ∀ m ∈ d.quoteMargins,
    (lexemesOf (m.1.toList.map .plain) ++ lexemesOf (m.2.toList.map .plain)).all
      Lexeme.isAtomic = true :=
  hd.of_databases (by decide) fun _ h => h

theorem quoted_atomic (hd : d.BuiltIn) {lead tail : String} (h : (lead, tail) ∈ d.quoteMargins)
    (content : String) (n : Nat) :
    d.lexemes n [.constant (.quoted lead content tail)] ≠ [] ∧
      (d.lexemes n [.constant (.quoted lead content tail)]).all Lexeme.isAtomic = true := by
  have margins := margin_atomic hd _ h
  have separated : IsSeparated (.text content :: tail.toList.map .plain) := nofun
  have eq : d.lexemes n [.constant (.quoted lead content tail)] =
      lexemesOf (lead.toList.map .plain) ++
        .text content :: lexemesOf (tail.toList.map .plain) := by
    rw [lexemes_singleton, ← lexemesOf_text, ← lexemesOf_append separated]
    rfl
  rw [List.all_append, Bool.and_eq_true] at margins
  rw [eq]
  refine ⟨by simp, ?_⟩
  rw [List.all_append, List.all_cons, margins.1, margins.2]
  rfl

/-- A literal is atomic, but for the sign in front of a negative number. -/
theorem literal_atomic (hd : d.BuiltIn) (o : Options) (l : Literal) (n : Nat) :
    ∃ ls, ls ≠ [] ∧ ls.all Lexeme.isAtomic = true ∧
      (d.lexemes n [d.literalToken o l] = ls ∨
        l.value.isSigned = true ∧
          d.lexemes n [d.literalToken o l] = .operator .subtract :: ls) := by
  unfold literalToken
  split
  · refine ⟨_, ?_, ?_, .inl rfl⟩
    · simp [lexemes_placeholder hd]
    · rw [lexemes_placeholder hd]
      rfl
  · have solid := constant_solid hd l.value l.type
    cases eq : d.constant l.value l.type with
    | bare text =>
      rw [lexemes_singleton]
      rw [show d.scannedToken (n, .constant (.bare text)) = text.toList.map .plain from rfl]
      rcases constant_bare hd eq with unsigned | ⟨signed, cs, minus, unsigned⟩
      · exact ⟨_, (unsigned_atomic unsigned).1, (unsigned_atomic unsigned).2, .inl rfl⟩
      · rw [minus, lexemesOf_signed unsigned]
        exact ⟨_, (unsigned_atomic unsigned).1, (unsigned_atomic unsigned).2, .inr ⟨signed, rfl⟩⟩
    | quoted lead content tail =>
      rw [eq] at solid
      cases solid with
      | quoted _ margin =>
        obtain ⟨ne, atomic⟩ := quoted_atomic hd margin content n
        exact ⟨_, ne, atomic, .inl rfl⟩

end Dialect

/-! ### Parentheses -/

def Lexeme.parenthesis? : Lexeme → Option Char
  | .opening => some '('
  | .closing => some ')'
  | _ => none

theorem parenthesis?_lookup {α : Type} [BEq α] [LawfulBEq α] {table : List (α × Lexeme)}
    (h : ∀ entry ∈ table, entry.2.parenthesis? = none) {l : Lexeme} (other : l.parenthesis? = none)
    (key : α) : ((table.lookup key).getD l).parenthesis? = none := by
  cases found : table.lookup key with
  | none => exact other
  | some l =>
    obtain ⟨before, after, rfl, -⟩ := List.lookup_eq_some_iff.1 found
    exact h (key, l) (List.mem_append_right _ List.mem_cons_self)

theorem parenthesis?_flush (state : LexState) : state.flush.filterMap Lexeme.parenthesis? = [] := by
  have words : ∀ entry ∈ Lexeme.reserved, entry.2.parenthesis? = none := by decide
  have marks : ∀ entry ∈ Lexeme.operators, entry.2.parenthesis? = none := by decide
  cases state with
  | idle => rfl
  | word cs => exact List.filterMap_cons_none (parenthesis?_lookup words rfl _)
  | marks cs => exact List.filterMap_cons_none (parenthesis?_lookup marks rfl _)

theorem parenthesis?_step (state : LexState) (x : Scanned) :
    (state.step x).2.filterMap Lexeme.parenthesis? = (x.plain?.toList).filter isParenthesis := by
  cases x with
  | name n => simp [LexState.step, parenthesis?_flush, Lexeme.parenthesis?, Scanned.plain?]
  | text s => simp [LexState.step, parenthesis?_flush, Lexeme.parenthesis?, Scanned.plain?]
  | plain c =>
    by_cases parenthesis : isParenthesis c = true
    · have mark : c = '(' ∨ c = ')' := by simpa [isParenthesis] using parenthesis
      have ends : state.continues c = false :=
        isSeparated_plain (by rcases mark with rfl | rfl <;> simp) [] c rfl state
      rw [LexState.step, ends, if_neg (by simp), List.filterMap_append, parenthesis?_flush]
      rcases mark with rfl | rfl <;> rfl
    · have other : (Scanned.plain c).plain?.toList.filter isParenthesis = [] := by
        simp [Scanned.plain?, parenthesis]
      have started : (LexState.start c).2.filterMap Lexeme.parenthesis? = [] := by
        unfold LexState.start
        split
        · rfl
        · split
          · rename_i l single
            unfold singleMark at single
            split at single <;> cases single
            · exact absurd rfl parenthesis
            · exact absurd rfl parenthesis
            · rfl
          · split
            · rfl
            · split <;> rfl
      rw [LexState.step, other]
      split
      · rfl
      · rw [List.filterMap_append, parenthesis?_flush, started]
        rfl

/-- The parentheses among the lexemes are those outside of quotes. -/
theorem parenthesis?_run (state : LexState) (xs : List Scanned) :
    (run state xs).filterMap Lexeme.parenthesis? =
      (xs.filterMap Scanned.plain?).filter isParenthesis := by
  induction xs generalizing state with
  | nil => exact parenthesis?_flush state
  | cons x xs ih =>
    have first : (x :: xs).filterMap Scanned.plain? =
        x.plain?.toList ++ xs.filterMap Scanned.plain? := by cases x <;> rfl
    rw [run, List.filterMap_append, ih, parenthesis?_step, first, List.filter_append]

theorem parenDepth_filter (k : Nat) (cs : List Char) :
    parenDepth k (cs.filter isParenthesis) = parenDepth k cs := by
  induction cs generalizing k with
  | nil => rfl
  | cons c cs ih =>
    by_cases opening : c = '('
    · subst opening
      exact ih (k + 1)
    · by_cases closing : c = ')'
      · subst closing
        cases k with
        | zero => rfl
        | succ k => exact ih k
      · have other : isParenthesis c = false := by simp [isParenthesis, opening, closing]
        rw [List.filter_cons_of_neg (by simp [other]), parenDepth_other opening closing, ih]

/-- The parentheses of a phrase close among its lexemes. -/
theorem Dialect.lexemes_balanced {d : Dialect} (hd : d.BuiltIn) {ts : List Token}
    (h : d.Phrase ts) (ordinary : ∀ t ∈ ts, t.IsOrdinary) (n : Nat) :
    IsBalanced ((d.lexemes n ts).filterMap Lexeme.parenthesis?) := by
  have lexemes := lexemesOf_phrase hd h ordinary n isSeparated_nil
  have depth := depth_phrase hd h (fun t ht => (ordinary t ht).isTame) n 0 []
  rw [List.append_nil, lexemesOf_nil, List.append_nil] at lexemes
  rw [← lexemes, lexemesOf, parenthesis?_run, IsBalanced, parenDepth_filter]
  rwa [List.append_nil] at depth

end SelectCompiler
