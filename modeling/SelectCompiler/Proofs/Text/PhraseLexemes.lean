import SelectCompiler.Proofs.Text.Lexing

/-!
Lexemes of written tokens. Main statement: the text of a phrase has the lexemes of its tokens, one
token after the other, if raw texts in it are ordinary words.
-/

namespace SelectCompiler

/-- A word of letters, digits and underscores that is not reserved. -/
structure IsOrdinary (text : String) : Prop where
  ne_nil : text.toList ≠ []
  body : text.toList.all (fun c => c.isAlphanum || c == '_') = true
  free : Lexeme.reserved.lookup (String.ofList (text.toList.map Char.toUpper)) = none

instance (text : String) : Decidable (IsOrdinary text) :=
  decidable_of_iff (text.toList ≠ [] ∧ text.toList.all (fun c => c.isAlphanum || c == '_') = true ∧
      Lexeme.reserved.lookup (String.ofList (text.toList.map Char.toUpper)) = none)
    ⟨fun h => ⟨h.1, h.2.1, h.2.2⟩, fun h => ⟨h.ne_nil, h.body, h.free⟩⟩

namespace IsOrdinary

variable {text : String}

theorem char (h : IsOrdinary text) {c : Char} (hc : c ∈ text.toList) :
    c.isAlphanum = true ∨ c = '_' := by
  have := List.all_eq_true.1 h.body c hc
  simpa using this

theorem wordChar (h : IsOrdinary text) {c : Char} (hc : c ∈ text.toList) :
    isWordChar c = true := by
  rcases h.char hc with letter | rfl
  · exact isWordChar_of_isAlphanum letter
  · decide

theorem lexemes (h : IsOrdinary text) : lexemesOf (text.toList.map .plain) = [.word text] := by
  rw [lexemesOf_word h.ne_nil fun c hc => h.wordChar hc, Lexeme.ofWord, h.free, Option.getD_none,
    String.ofList_toList]

theorem isTame (h : IsOrdinary text) : IsTame text where
  unquoted c hc := by
    rcases h.char hc with letter | rfl
    · rw [isUnquoted, Bool.not_eq_true', List.contains_eq_mem, decide_eq_false_iff_not]
      intro quote
      have none : ['\'', '"', '\x60', '[', ']'].all (fun c => !c.isAlphanum) = true := by decide
      have := List.all_eq_true.1 none c quote
      simp [letter] at this
    · decide
  balanced := by
    refine isBalanced_of_none fun c hc => ?_
    rw [isParenthesis, Bool.or_eq_false_iff, beq_eq_false_iff_ne, beq_eq_false_iff_ne]
    constructor <;>
      · rintro rfl
        exact absurd (h.wordChar hc) (by decide)

end IsOrdinary

def Token.IsOrdinary : Token → Prop
  | .verbatim text => SelectCompiler.IsOrdinary text
  | _ => True

theorem Token.IsOrdinary.isTame {t : Token} (h : t.IsOrdinary) : t.IsTame := by
  cases t with
  | verbatim text => exact SelectCompiler.IsOrdinary.isTame h
  | _ => trivial

namespace Dialect

variable (d : Dialect)

def tokenLexemes (p : Nat × Token) : List Lexeme := lexemesOf (d.scannedToken p)

/-- The lexemes of tokens, the first placeholder having the given position. -/
def lexemes (position : Nat) (ts : List Token) : List Lexeme :=
  (Token.positioned position ts).flatMap d.tokenLexemes

variable {d}

@[simp] theorem lexemes_nil (n : Nat) : d.lexemes n [] = [] := rfl

@[simp] theorem lexemes_append (n : Nat) (a b : List Token) :
    d.lexemes n (a ++ b) = d.lexemes n a ++ d.lexemes (Token.after n a) b := by
  simp [lexemes]

theorem lexemes_cons (n : Nat) (t : Token) (ts : List Token) :
    d.lexemes n (t :: ts) = d.lexemes n [t] ++ d.lexemes (Token.after n [t]) ts :=
  lexemes_append n [t] ts

theorem lexemes_singleton (n : Nat) (t : Token) :
    d.lexemes n [t] = lexemesOf (d.scannedToken (n, t)) := by
  simp [lexemes, Token.positioned, tokenLexemes]

@[simp] theorem scanned_nil (n : Nat) : d.scanned n [] = [] := rfl

theorem scanned_cons (n : Nat) (t : Token) (ts : List Token) :
    d.scanned n (t :: ts) = d.scannedToken (n, t) ++ d.scanned (Token.after n [t]) ts := by
  have := scanned_append (d := d) n [t] ts
  simpa [scanned, Token.positioned] using this

/-! ### What stands at the beginning -/

theorem word_head (hd : d.BuiltIn) :
    ∀ w ∈ keywords ++ d.typeWords, w.toList.head?.any (!isOperatorChar ·) = true :=
  List.forall_mem_append.2 ⟨by decide, hd.of_databases (by decide) fun _ h => h⟩

theorem margin_head (hd : d.BuiltIn) :
    ∀ m ∈ d.quoteMargins, m.1.toList.head?.all (!isOperatorChar ·) = true :=
  hd.of_databases (by decide) fun _ h => h

theorem unsigned_head {cs : List Char} (h : IsUnsigned cs) :
    ∃ c, cs.head? = some c ∧ c.isAlphanum = true := by
  rcases h with ⟨w, hw, rfl⟩ | ⟨mantissa, exponent, rfl, ⟨⟨c, hc, digit⟩, -⟩, -⟩
  · obtain ⟨ne, letters⟩ := constantWord_chars w hw
    cases eq : w.toList with
    | nil => exact absurd eq ne
    | cons c cs =>
      have letter := List.all_eq_true.1 letters c (eq ▸ List.mem_cons_self)
      exact ⟨c, rfl, by simp [Char.isAlphanum, letter]⟩
  · exact ⟨c, by simp [List.head?_append, hc], isAlphanum_of_isDigit digit⟩

theorem operatorChar_of_isAlphanum {c : Char} (h : c.isAlphanum = true) :
    isOperatorChar c = false := by
  have word := isWordChar_of_isAlphanum h
  simp only [isWordChar, Bool.and_eq_true, Bool.not_eq_true'] at word
  exact word.1.1.2

theorem ordinary_head {t : Token} (h : t.IsOrdinary) :
    ∀ text, t = .verbatim text → text.toList.head?.any (!isOperatorChar ·) = true := by
  rintro text rfl
  obtain ⟨c, cs, eq⟩ := List.exists_cons_of_ne_nil (IsOrdinary.ne_nil h)
  have other : isOperatorChar c = false := by
    rcases IsOrdinary.char h (eq ▸ List.mem_cons_self) with letter | rfl
    · exact operatorChar_of_isAlphanum letter
    · decide
  simp [eq, other]

/-- What the scanner makes of a list of characters starts like the list. -/
theorem plain_head {cs : List Char} (h : cs.head?.any (!isOperatorChar ·) = true) :
    ∃ x, (cs.map Scanned.plain).head? = some x ∧ ∀ c, x = .plain c → isOperatorChar c = false := by
  cases cs with
  | nil => cases h
  | cons c cs =>
    refine ⟨.plain c, rfl, ?_⟩
    rintro _ ⟨⟩
    simpa using h

theorem token_head (hd : d.BuiltIn) {ts : List Token} (h : d.Phrase ts) :
    ∀ t ∈ ts, (∀ text, t = .verbatim text → text.toList.head?.any (!isOperatorChar ·) = true) →
      t.startsWithMark = false → ∀ n, ∃ x, (d.scannedToken (n, t)).head? = some x ∧
        ∀ c, x = .plain c → isOperatorChar c = false := by
  refine h.forall_mem ?_ ?_ ?_
  · intro _ _ n
    exact @plain_head " ".toList (by decide)
  · intro t solid raw unmarked n
    cases solid with
    | word hw => exact plain_head (word_head hd _ hw)
    | verbatim text => exact plain_head (raw text rfl)
    | name n => exact ⟨.name n, rfl, fun c eq => by cases eq⟩
    | @bare text hb =>
      rcases hb with unsigned | ⟨cs, eq, -⟩
      · obtain ⟨c, hc, letter⟩ := unsigned_head unsigned
        refine plain_head ?_
        rw [tokenText, constantText, hc]
        simp [operatorChar_of_isAlphanum letter]
      · simp [Token.startsWithMark, eq] at unmarked
    | @quoted lead tail content hm =>
      have margin := margin_head hd _ hm
      cases eq : lead.toList with
      | nil => exact ⟨.text content, by simp [scannedToken, eq], fun c eq => by cases eq⟩
      | cons c cs =>
        refine ⟨.plain c, by simp [scannedToken, eq], ?_⟩
        rintro _ ⟨⟩
        simpa [eq] using margin
    | placeholder b =>
      obtain ⟨cs, eq⟩ := placeholderText_head hd n
      have sign : isOperatorChar d.placeholderSign = false := by cases hd <;> rfl
      exact plain_head (by simp [tokenText, eq, sign])
  · intro s hs _ unmarked n
    simp only [Token.startsWithMark, bne_eq_false_iff_eq] at unmarked
    subst unmarked
    exact @plain_head "(".toList (by decide)

theorem PhraseOf.ne_nil {ok : List Token → Prop} {ts : List Token} (h : d.PhraseOf ok ts) :
    ts ≠ [] := by
  cases h <;> simp [Token.enclosed]

/-! ### Marks and spaces -/

theorem scanned_space (n : Nat) (ts : List Token) :
    d.scanned n (.space :: ts) = .plain ' ' :: d.scanned n ts := by
  rw [scanned_cons, show Token.after n [.space] = n from rfl]
  simp [scannedToken, tokenText]

theorem scanned_mark {s : String} {c : Char} (h : s.toList = [c]) (n : Nat) (ts : List Token) :
    d.scanned n (.symbol s :: ts) = .plain c :: d.scanned n ts := by
  rw [scanned_cons, show Token.after n [.symbol s] = n from rfl]
  simp [scannedToken, tokenText, h]

/-- A word in front of a blank is read on its own. -/
theorem lexemesOf_keyword {w : String} {l : Lexeme} (single : lexemesOf (w.toList.map .plain) = [l])
    (n : Nat) (ts : List Token) :
    lexemesOf (d.scanned n (.word w :: .space :: ts)) = l :: lexemesOf (d.scanned n ts) := by
  have separated : IsSeparated (.plain ' ' :: d.scanned n ts) := isSeparated_plain (by simp) _
  have scanned : d.scanned n (.word w :: .space :: ts) =
      w.toList.map .plain ++ Scanned.plain ' ' :: d.scanned n ts := by
    rw [scanned_cons, show Token.after n [.word w] = n from rfl, scanned_space]
    rfl
  rw [scanned, lexemesOf_append separated, single, lexemesOf_blank, List.singleton_append]

@[simp] theorem lexemes_space (n : Nat) (ts : List Token) :
    d.lexemes n (.space :: ts) = d.lexemes n ts := by
  rw [lexemes_cons, show Token.after n [.space] = n from rfl, lexemes_singleton]
  simp [scannedToken, tokenText]

theorem lexemes_mark {s : String} {c : Char} {l : Lexeme} (h : s.toList = [c])
    (lexeme : lexemesOf [.plain c] = [l]) (n : Nat) (ts : List Token) :
    d.lexemes n (.symbol s :: ts) = l :: d.lexemes n ts := by
  rw [lexemes_cons, show Token.after n [.symbol s] = n from rfl, lexemes_singleton]
  simp [scannedToken, tokenText, h, lexeme]

@[simp] theorem lexemes_opening (n : Nat) (ts : List Token) :
    d.lexemes n (.symbol "(" :: ts) = .opening :: d.lexemes n ts :=
  lexemes_mark (c := '(') (by decide) rfl n ts

@[simp] theorem lexemes_closing (n : Nat) (ts : List Token) :
    d.lexemes n (.symbol ")" :: ts) = .closing :: d.lexemes n ts :=
  lexemes_mark (c := ')') (by decide) rfl n ts

@[simp] theorem lexemes_comma (n : Nat) (ts : List Token) :
    d.lexemes n (.symbol "," :: ts) = .comma :: d.lexemes n ts :=
  lexemes_mark (c := ',') (by decide) rfl n ts

@[simp] theorem lexemes_point (n : Nat) (ts : List Token) :
    d.lexemes n (.symbol "." :: ts) = .dot :: d.lexemes n ts :=
  lexemes_mark (c := '.') (by decide) rfl n ts

@[simp] theorem lexemes_minus (n : Nat) (ts : List Token) :
    d.lexemes n (.symbol "-" :: ts) = .operator .subtract :: d.lexemes n ts :=
  lexemes_mark (c := '-') (by decide) (by decide) n ts

@[simp] theorem lexemes_name (n : Nat) (name : String) (ts : List Token) :
    d.lexemes n (.name name :: ts) = .name name :: d.lexemes n ts := by
  rw [lexemes_cons, show Token.after n [.name name] = n from rfl, lexemes_singleton]
  rfl

/-! ### Lexemes of phrases -/

theorem lexemesOf_single {rest : List Scanned} (separated : IsSeparated rest) (n : Nat)
    (t : Token) : lexemesOf (d.scannedToken (n, t) ++ rest) = d.lexemes n [t] ++ lexemesOf rest := by
  rw [lexemesOf_append separated, lexemes_singleton]

/-- In front of what is separated, a phrase is read token by token. -/
theorem lexemesOf_phrase (hd : d.BuiltIn) {ts : List Token} (h : d.Phrase ts)
    (ordinary : ∀ t ∈ ts, t.IsOrdinary) (n : Nat) {rest : List Scanned}
    (separated : IsSeparated rest) :
    lexemesOf (d.scanned n ts ++ rest) = d.lexemes n ts ++ lexemesOf rest := by
  have opening (n : Nat) (ts : List Token) := scanned_mark (d := d) (s := "(") (c := '(')
    (by decide) n ts
  have closing (n : Nat) (ts : List Token) := scanned_mark (d := d) (s := ")") (c := ')')
    (by decide) n ts
  have comma (n : Nat) (ts : List Token) := scanned_mark (d := d) (s := ",") (c := ',')
    (by decide) n ts
  have point (n : Nat) (ts : List Token) := scanned_mark (d := d) (s := ".") (c := '.')
    (by decide) n ts
  have minus (n : Nat) (ts : List Token) := scanned_mark (d := d) (s := "-") (c := '-')
    (by decide) n ts
  induction h generalizing n rest with
  | solid h =>
    rw [scanned_cons]
    simpa [scanned, Token.positioned] using lexemesOf_single separated n _
  | operator h =>
    rw [scanned_cons]
    simpa [scanned, Token.positioned] using lexemesOf_single separated n _
  | @owned owner ts h ih =>
    obtain ⟨-, -, ordinary⟩ := (List.forall_mem_cons.1 ordinary).imp_right List.forall_mem_cons.1
    rw [scanned_cons, show Token.after n [.name owner] = n from rfl, point]
    simp [scannedToken, ih ordinary n separated]
  | @negated ts h unmarked ih =>
    have ordinary := (List.forall_mem_cons.1 ordinary).2
    obtain ⟨t, us, rfl⟩ := List.exists_cons_of_ne_nil h.ne_nil
    have single : ∀ c, (d.scanned n (t :: us) ++ rest).head? = some (.plain c) →
        isOperatorChar c = false := by
      obtain ⟨x, head, other⟩ := token_head hd h t List.mem_cons_self
        (ordinary_head (ordinary t List.mem_cons_self)) (unmarked t rfl) n
      intro c hc
      rw [scanned_cons, List.append_assoc, List.head?_append, head] at hc
      exact other c (Option.some.inj hc)
    rw [minus, List.cons_append, lexemesOf_minus single, ih ordinary n separated, lexemes_minus]
    rfl
  | empty => simp [Token.enclosed, opening, closing]
  | @enclosed ts h ih =>
    have inside := (List.forall_mem_append.1 (List.forall_mem_cons.1 ordinary).2).1
    have last : IsSeparated (.plain ')' :: rest) := isSeparated_plain (by simp) rest
    have inner := ih inside n last
    rw [Token.enclosed, List.cons_append, opening, scanned_append, closing, List.cons_append,
      List.append_assoc, List.cons_append, scanned_nil, List.nil_append, lexemesOf_opening, inner]
    simp
  | @called t ts h arguments ih =>
    obtain ⟨head, ordinary⟩ := List.forall_mem_cons.1 ordinary
    have inner := ih ordinary (Token.after n [t]) separated
    have next : IsSeparated (d.scanned (Token.after n [t]) (Token.enclosed ts) ++ rest) := by
      rw [Token.enclosed, List.cons_append, opening]
      exact isSeparated_plain (by simp) _
    rw [scanned_cons, List.append_assoc, lexemesOf_single next, inner,
      lexemes_cons n t (Token.enclosed ts), List.append_assoc]
  | @spaced a b ha hb iha ihb =>
    obtain ⟨left, right⟩ := List.forall_mem_append.1 ordinary
    have right := (List.forall_mem_cons.1 right).2
    have next : IsSeparated (.plain ' ' :: (d.scanned (Token.after n a) b ++ rest)) :=
      isSeparated_plain (by simp) _
    have first := iha left n next
    rw [scanned_append, scanned_space, List.append_assoc, List.cons_append, first, lexemesOf_blank,
      ihb right _ separated, lexemes_append, lexemes_space, List.append_assoc]
  | @listed a b ha hb iha ihb =>
    obtain ⟨left, right⟩ := List.forall_mem_append.1 ordinary
    have right := (List.forall_mem_cons.1 (List.forall_mem_cons.1 right).2).2
    have next : IsSeparated
        (.plain ',' :: .plain ' ' :: (d.scanned (Token.after n a) b ++ rest)) :=
      isSeparated_plain (by simp) _
    have first := iha left n next
    rw [scanned_append, comma, scanned_space, List.append_assoc, List.cons_append,
      List.cons_append, first, lexemesOf_comma, lexemesOf_blank, ihb right _ separated,
      lexemes_append, lexemes_comma, lexemes_space, List.append_assoc]
    rfl

theorem lex_phrase (hd : d.BuiltIn) {ts : List Token} (h : d.Phrase ts)
    (ordinary : ∀ t ∈ ts, t.IsOrdinary) (n : Nat) :
    d.lex (String.join (d.texts n ts)) = some (d.lexemes n ts) := by
  have scans : d.Scans n ts [] :=
    scans_phrase hd h (fun t ht => (ordinary t ht).isTame) n nofun
  have text : (String.join (d.texts n ts)).toList = d.characters n ts := by
    rw [String.toList_join, texts_eq, List.flatMap_map, characters]
  have lexemes := lexemesOf_phrase hd h ordinary n isSeparated_nil
  rw [Scans, List.append_nil] at scans
  rw [lex, scan, text, scans]
  simpa [scanFrom, ScanState.complete] using lexemes

end Dialect

end SelectCompiler
