import SelectCompiler.Proofs.Text.Lexemes

/-!
Lexemes of written tokens. Main statement: the text of a phrase has the lexemes of its tokens, one
token after the other, if raw texts in it are ordinary words.
-/

namespace SelectCompiler

open LexState (run)

/-! ### Characters of words -/

theorem isAlpha_iff {c : Char} :
    c.isAlpha = true ↔ 65 ≤ c.toNat ∧ c.toNat ≤ 90 ∨ 97 ≤ c.toNat ∧ c.toNat ≤ 122 := by
  show (decide (65 ≤ c.toNat ∧ c.toNat ≤ 90) ||
    (decide (97 ≤ c.toNat) && decide (c.toNat ≤ 122))) = true ↔ _
  rw [Bool.or_eq_true, Bool.and_eq_true, decide_eq_true_eq, decide_eq_true_eq, decide_eq_true_eq]

theorem not_isAlpha_of_isDigit {c : Char} (h : c.isDigit = true) : c.isAlpha = false := by
  rw [Bool.eq_false_iff, ne_eq, isAlpha_iff]
  rw [isDigit_iff] at h
  omega

theorem toUpper_eq {c : Char} (h : c.isAlpha = false) : c.toUpper = c := by
  rw [Bool.eq_false_iff, ne_eq, isAlpha_iff] at h
  unfold Char.toUpper
  split
  · rename_i lower
    have low : 97 ≤ c.toNat := lower.1
    have high : c.toNat ≤ 122 := lower.2
    omega
  · rfl

theorem isWordChar_of_isAlphanum {c : Char} (h : c.isAlphanum = true) : isWordChar c = true := by
  have blank : isBlank c = false := by
    rw [show c.isAlphanum = (c.isAlpha || c.isDigit) from rfl, Bool.or_eq_true, isAlpha_iff,
      isDigit_iff] at h
    simp only [isBlank, Bool.or_eq_false_iff, Bool.and_eq_false_iff, decide_eq_false_iff_not,
      beq_eq_false_iff_ne]
    omega
  have marks : ['+', '-', '*', '/', '%', '|', '=', '<', '>', '&', '(', ')', ',', '.'].all
      (fun c => !c.isAlphanum) = true := by decide
  have other {m : Char} (hm : m ∈ ['+', '-', '*', '/', '%', '|', '=', '<', '>', '&', '(', ')', ',',
      '.']) : c ≠ m := by
    rintro rfl
    have none := List.all_eq_true.1 marks c hm
    simp [h] at none
  have operator : isOperatorChar c = false := by
    rw [isOperatorChar, List.contains_eq_mem, decide_eq_false_iff_not]
    intro mem
    exact other (List.mem_append_left ['(', ')', ',', '.'] mem) rfl
  have single : singleMark c = none := by
    unfold singleMark
    split
    · exact absurd rfl (other (by decide))
    · exact absurd rfl (other (by decide))
    · exact absurd rfl (other (by decide))
    · rfl
  have point : c ≠ '.' := other (by decide)
  simp [isWordChar, blank, operator, single, point]

namespace LexState

/-- The characters of a word, or of a number with its point. -/
theorem run_continued (ds cs : List Char)
    (h : ∀ c ∈ cs, isWordChar c = true ∨ ds.head?.any Char.isDigit = true ∧ c = '.')
    (xs : List Scanned) : run (.word ds) (cs.map .plain ++ xs) = run (.word (ds ++ cs)) xs := by
  induction cs generalizing ds with
  | nil => simp
  | cons c cs ih =>
    have first := h c List.mem_cons_self
    have goesOn : (LexState.word ds).continues c = true := by
      rcases first with inWord | ⟨digit, rfl⟩
      · simp [continues, inWord]
      · simp [continues, digit]
    have head : ds.head?.any Char.isDigit = true → (ds ++ [c]).head?.any Char.isDigit = true := by
      cases ds with
      | nil => intro none; cases none
      | cons d ds => exact id
    have rest := ih (ds ++ [c]) fun c' hc' =>
      (h c' (List.mem_cons_of_mem c hc')).imp_right fun number => ⟨head number.1, number.2⟩
    rw [List.map_cons, List.cons_append, run, step, if_pos goesOn, extend, rest, List.append_assoc]
    rfl

end LexState

theorem isWordChar_start {c : Char} (h : isWordChar c = true) (xs : List Scanned) :
    lexemesOf (.plain c :: xs) = run (.word [c]) xs := by
  simp only [isWordChar, Bool.and_eq_true, Bool.not_eq_true', Option.isNone_iff_eq_none,
    bne_iff_ne] at h
  obtain ⟨⟨⟨blank, operator⟩, single⟩, point⟩ := h
  simp [lexemesOf, run, LexState.step, LexState.continues, LexState.start, LexState.flush, blank,
    operator, single, point]

theorem lexemesOf_word {cs : List Char} (ne : cs ≠ []) (h : ∀ c ∈ cs, isWordChar c = true) :
    lexemesOf (cs.map .plain) = [.ofWord cs] := by
  cases cs with
  | nil => exact absurd rfl ne
  | cons c cs =>
    have first := isWordChar_start (h c List.mem_cons_self) (cs.map .plain)
    have rest := LexState.run_continued [c] cs
      (fun c' hc' => .inl (h c' (List.mem_cons_of_mem c hc'))) []
    rw [List.append_nil] at rest
    rw [List.map_cons, first, rest]
    rfl

namespace Lexeme

/-- Reserved words start with a letter. -/
theorem ofWord_unreserved {c : Char} (h : c.isAlpha = false) (cs : List Char) :
    ofWord (c :: cs) = word (String.ofList (c :: cs)) := by
  have letters : ∀ entry ∈ reserved, entry.1.toList.head?.all Char.isAlpha = true := by decide
  have none : reserved.lookup (String.ofList ((c :: cs).map Char.toUpper)) = none := by
    rw [List.lookup_eq_none_iff]
    intro entry mem
    rw [bne_iff_ne]
    intro eq
    have letter := letters entry mem
    rw [← eq, String.toList_ofList, List.map_cons, toUpper_eq h] at letter
    simp [h] at letter
  rw [ofWord, none, Option.getD_none]

/-- The lexemes that constants, placeholders and names are made of. -/
def isAtomic : Lexeme → Bool
  | name _ | text _ | word _ | keyword .null | dot => true
  | _ => false

end Lexeme

/-- The sign of an exponent does not end a number. -/
theorem lexemesOf_number {cs : List Char} (h : IsNumber cs) :
    lexemesOf (cs.map .plain) = [.word (String.ofList cs)] := by
  obtain ⟨mantissa, exponent, rfl, ⟨⟨c, hc, digit⟩, body⟩, signed⟩ := h
  cases mantissa with
  | nil => cases hc
  | cons c' ms =>
    obtain rfl := Option.some.inj hc
    have inWord {c' : Char} (h : c'.isDigit = true) : isWordChar c' = true :=
      isWordChar_of_isAlphanum (isAlphanum_of_isDigit h)
    have first := isWordChar_start (inWord digit)
    have middle := LexState.run_continued [c'] ms fun m hm =>
      (body m (List.mem_cons_of_mem c' hm)).imp isWordChar_of_isAlphanum fun point =>
        ⟨digit, point⟩
    rw [List.cons_append, List.map_cons, first, List.map_append, middle]
    rw [← Lexeme.ofWord_unreserved (not_isAlpha_of_isDigit digit)]
    rcases signed with rfl | ⟨sign, digits, rfl, plusMinus, digit'⟩
    · simp [run, LexState.flush]
    · have last := LexState.run_continued ([c'] ++ ms ++ ['e'] ++ [sign]) digits
        (fun d hd => .inl (inWord (digit' d hd))) []
      have e : (LexState.word ([c'] ++ ms)).continues 'e' = true := by
        have inWord : isWordChar 'e' = true := by decide
        simp [LexState.continues, inWord]
      have s : (LexState.word ([c'] ++ ms ++ ['e'])).continues sign = true := by
        have lastIsE : ([c'] ++ ms ++ ['e']).getLast? = some 'e' := List.getLast?_concat
        have head : ([c'] ++ ms ++ ['e']).head?.any Char.isDigit = true := digit
        rcases plusMinus with rfl | rfl <;>
          (rw [LexState.continues, lastIsE, head]; decide)
      rw [List.append_nil] at last
      rw [List.map_cons, List.map_cons, run, LexState.step, if_pos e, LexState.extend, run,
        LexState.step, if_pos s, LexState.extend, last]
      simp [run, LexState.flush]

/-! ### Marks and quotes -/

@[simp] theorem lexemesOf_nil : lexemesOf [] = [] := rfl

@[simp] theorem lexemesOf_name (n : String) (xs : List Scanned) :
    lexemesOf (.name n :: xs) = .name n :: lexemesOf xs := rfl

@[simp] theorem lexemesOf_text (s : String) (xs : List Scanned) :
    lexemesOf (.text s :: xs) = .text s :: lexemesOf xs := rfl

@[simp] theorem lexemesOf_blank (xs : List Scanned) :
    lexemesOf (.plain ' ' :: xs) = lexemesOf xs := rfl

@[simp] theorem lexemesOf_point (xs : List Scanned) :
    lexemesOf (.plain '.' :: xs) = .dot :: lexemesOf xs := rfl

@[simp] theorem lexemesOf_opening (xs : List Scanned) :
    lexemesOf (.plain '(' :: xs) = .opening :: lexemesOf xs := rfl

@[simp] theorem lexemesOf_closing (xs : List Scanned) :
    lexemesOf (.plain ')' :: xs) = .closing :: lexemesOf xs := rfl

@[simp] theorem lexemesOf_comma (xs : List Scanned) :
    lexemesOf (.plain ',' :: xs) = .comma :: lexemesOf xs := rfl

theorem lexemesOf_minus {xs : List Scanned}
    (h : ∀ c, xs.head? = some (.plain c) → isOperatorChar c = false) :
    lexemesOf (.plain '-' :: xs) = .operator .subtract :: lexemesOf xs := by
  have minus : Lexeme.ofMarks ['-'] = .operator .subtract := by decide
  have started : lexemesOf (.plain '-' :: xs) = run (.marks ['-']) xs := rfl
  rw [started]
  cases xs with
  | nil => simp [run, LexState.flush, minus]
  | cons x xs =>
    cases x with
    | name n => simp [run, LexState.step, LexState.flush, minus, lexemesOf]
    | text s => simp [run, LexState.step, LexState.flush, minus, lexemesOf]
    | plain c =>
      have other := h c rfl
      simp [run, LexState.step, LexState.continues, LexState.flush, minus, lexemesOf, other]

end SelectCompiler
