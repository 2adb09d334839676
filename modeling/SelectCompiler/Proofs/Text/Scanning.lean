import SelectCompiler.Proofs.Text.Scanner
import SelectCompiler.Proofs.Tokens.Positions

/-!
Scanning what has been written. Main statement: the text of a phrase is scanned token by token, and
its parentheses close, if no raw text in it has quotes or open parentheses.
-/

namespace SelectCompiler

/-! ### Parentheses -/

/-- How many parentheses are open after the characters; none, if one is closed too many. -/
def parenDepth : (opened : Nat) → List Char → Option Nat
  | k, [] => some k
  | k, c :: cs =>
    if c = '(' then parenDepth (k + 1) cs
    else if c = ')' then
      match k with
      | 0 => none
      | k + 1 => parenDepth k cs
    else parenDepth k cs

def IsBalanced (cs : List Char) : Prop := parenDepth 0 cs = some 0

instance (cs : List Char) : Decidable (IsBalanced cs) := inferInstanceAs (Decidable (_ = _))

@[simp] theorem parenDepth_opening (k : Nat) (cs : List Char) :
    parenDepth k ('(' :: cs) = parenDepth (k + 1) cs := rfl

@[simp] theorem parenDepth_closing (k : Nat) (cs : List Char) :
    parenDepth (k + 1) (')' :: cs) = parenDepth k cs := rfl

theorem parenDepth_other {c : Char} (opening : c ≠ '(') (closing : c ≠ ')') (k : Nat)
    (cs : List Char) : parenDepth k (c :: cs) = parenDepth k cs := by
  simp [parenDepth, opening, closing]

theorem parenDepth_append {k m : Nat} {cs : List Char} (h : parenDepth k cs = some m) (j : Nat)
    (rest : List Char) : parenDepth (k + j) (cs ++ rest) = parenDepth (m + j) rest := by
  induction cs generalizing k with
  | nil => cases h; rfl
  | cons c cs ih =>
    rw [List.cons_append]
    by_cases opening : c = '('
    · subst opening
      rw [parenDepth_opening] at h ⊢
      rw [← ih h, Nat.add_right_comm]
    · by_cases closing : c = ')'
      · subst closing
        cases k with
        | zero => cases h
        | succ k =>
          rw [parenDepth_closing] at h
          rw [Nat.add_right_comm, parenDepth_closing, ih h]
      · rw [parenDepth_other opening closing] at h ⊢
        exact ih h

theorem IsBalanced.depth {cs : List Char} (h : IsBalanced cs) (k : Nat) (rest : List Char) :
    parenDepth k (cs ++ rest) = parenDepth k rest := by
  simpa using parenDepth_append h k rest

def isParenthesis (c : Char) : Bool := c == '(' || c == ')'

theorem isBalanced_of_none {cs : List Char} (h : ∀ c ∈ cs, isParenthesis c = false) :
    IsBalanced cs := by
  induction cs with
  | nil => rfl
  | cons c cs ih =>
    have none := h c List.mem_cons_self
    simp only [isParenthesis, Bool.or_eq_false_iff, beq_eq_false_iff_ne] at none
    rw [IsBalanced, parenDepth_other none.1 none.2]
    exact ih fun c hc => h c (List.mem_cons_of_mem _ hc)

/-! ### Tokens -/

def Scanned.plain? : Scanned → Option Char
  | .plain c => some c
  | _ => none

def Scanned.name? : Scanned → Option String
  | .name n => some n
  | _ => none

def Scanned.text? : Scanned → Option String
  | .text s => some s
  | _ => none

/-- Raw text that leaves quotes and parentheses around it as they are. -/
structure IsTame (text : String) : Prop where
  unquoted : ∀ c ∈ text.toList, isUnquoted c = true
  balanced : IsBalanced text.toList

instance (text : String) : Decidable (IsTame text) :=
  decidable_of_iff (text.toList.all isUnquoted = true ∧ IsBalanced text.toList)
    ⟨fun h => ⟨List.all_eq_true.1 h.1, h.2⟩, fun h => ⟨List.all_eq_true.2 h.unquoted, h.balanced⟩⟩

def Token.IsTame : Token → Prop
  | .verbatim text => SelectCompiler.IsTame text
  | _ => True

def Token.IsUnquoted : Token → Prop
  | .verbatim text => ∀ c ∈ text.toList, isUnquoted c = true
  | _ => True

theorem Token.IsTame.unquoted {t : Token} (h : t.IsTame) : t.IsUnquoted := by
  cases t with
  | verbatim text => exact SelectCompiler.IsTame.unquoted h
  | _ => trivial

namespace Dialect

variable {d : Dialect}

def scannedToken (d : Dialect) (p : Nat × Token) : List Scanned :=
  match p.2 with
  | .name n => [.name n]
  | .constant (.quoted lead content tail) =>
    lead.toList.map .plain ++ .text content :: tail.toList.map .plain
  | t => (d.tokenText p.1 t).toList.map .plain

def scanned (d : Dialect) (position : Nat) (ts : List Token) : List Scanned :=
  (Token.positioned position ts).flatMap d.scannedToken

theorem isUnquoted_of_own {c : Char} (h : d.isOwnChar c = true) : isUnquoted c = true := by
  rw [isUnquoted, Bool.not_eq_true', List.contains_eq_mem, decide_eq_false_iff_not]
  intro quote
  have quotes : ['\'', '"', '\x60', '[', ']'].all
      (fun c => !(isVocabularyChar c || isMarkChar c || c == ':')) = true := by decide
  have none := List.all_eq_true.1 quotes c quote
  simp only [isOwnChar, Bool.not_eq_true', Bool.or_eq_false_iff, Bool.or_eq_true,
    Bool.and_eq_true] at none h
  simp [none] at h

theorem placeholderText_chars (hd : d.BuiltIn) (position : Nat) :
    ∀ c ∈ (d.placeholderText position).toList,
      c ∈ ['?', '$', '@', 'p', ':'] ∨ c.isDigit = true := by
  have digits : ∀ c ∈ Nat.toDigits 10 position, c.isDigit = true :=
    fun _ => isDigit_of_mem_decimalDigits
  intro c hc
  cases hd <;>
    simp [placeholderText, postgres, mysql, sqlite, sqlServer, oracle, String.toList_append]
      at hc ⊢ <;>
    grind

theorem placeholderText_unquoted (hd : d.BuiltIn) (position : Nat) :
    ∀ c ∈ (d.placeholderText position).toList, isUnquoted c = true ∧ isParenthesis c = false := by
  have signs : ['?', '$', '@', 'p', ':'].all (fun c => isUnquoted c && !isParenthesis c) = true := by
    decide
  intro c hc
  rcases placeholderText_chars hd position c hc with hc | digit
  · simpa using List.all_eq_true.1 signs c hc
  · have own : d.isOwnChar c = true := by
      simp [isOwnChar, isVocabularyChar, isAlphanum_of_isDigit digit]
    refine ⟨isUnquoted_of_own own, ?_⟩
    rw [isParenthesis, Bool.or_eq_false_iff, beq_eq_false_iff_ne, beq_eq_false_iff_ne]
    constructor <;>
      · rintro rfl
        cases digit

/-! ### Scanning tokens -/

/-- The end of a text, or a character that ends what stands before it. -/
def IsDelimited (rest : List Char) : Prop := ∀ c ∈ rest.head?, c ∈ [' ', ',', '.', '(', ')']

theorem IsDelimited.head_ne (hd : d.BuiltIn) {rest : List Char} (h : IsDelimited rest) :
    rest.head? ≠ some d.quotes.closing ∧ rest.head? ≠ some '\'' := by
  have delimiters : ∀ c ∈ [' ', ',', '.', '(', ')'], isUnquoted c = true :=
    List.all_eq_true.1 (by decide)
  constructor <;> intro eq
  · exact (quotes_of_isUnquoted hd (delimiters _ (h _ eq))).2.1 rfl
  · exact (quotes_of_isUnquoted hd (delimiters _ (h _ eq))).2.2 rfl

@[simp] theorem characters_append (position : Nat) (a b : List Token) :
    d.characters position (a ++ b) =
      d.characters position a ++ d.characters (Token.after position a) b := by
  simp [characters]

@[simp] theorem scanned_append (position : Nat) (a b : List Token) :
    d.scanned position (a ++ b) =
      d.scanned position a ++ d.scanned (Token.after position a) b := by
  simp [scanned]

/-- In front of the rest the tokens are scanned one by one. -/
def Scans (d : Dialect) (position : Nat) (ts : List Token) (rest : List Char) : Prop :=
  d.scanFrom .outside (d.characters position ts ++ rest) =
    (d.scanFrom .outside rest).map (d.scanned position ts ++ ·)

theorem Scans.append {position : Nat} {a b : List Token} {rest : List Char}
    (ha : d.Scans position a (d.characters (Token.after position a) b ++ rest))
    (hb : d.Scans (Token.after position a) b rest) : d.Scans position (a ++ b) rest := by
  unfold Scans at *
  rw [characters_append, List.append_assoc, ha, hb]
  simp [Function.comp_def]

theorem Scans.cons {position : Nat} {t : Token} {ts : List Token} {rest : List Char}
    (ht : d.Scans position [t] (d.characters (Token.after position [t]) ts ++ rest))
    (hts : d.Scans (Token.after position [t]) ts rest) : d.Scans position (t :: ts) rest :=
  .append ht hts

theorem scans_plain (hd : d.BuiltIn) {position : Nat} {t : Token}
    (plain : d.scannedToken (position, t) = (d.tokenText position t).toList.map .plain)
    (h : ∀ c ∈ (d.tokenText position t).toList, isUnquoted c = true) (rest : List Char) :
    d.Scans position [t] rest := by
  have := scanFrom_plain hd h rest
  simpa [Scans, characters, scanned, Token.positioned, plain] using this

theorem scans_space (hd : d.BuiltIn) (position : Nat) (rest : List Char) :
    d.Scans position [.space] rest :=
  scans_plain hd (t := .space) rfl
    (by simpa [tokenText] using (by decide : isUnquoted ' ' = true)) rest

theorem scans_mark (hd : d.BuiltIn) {s : String} (h : s ∈ marks) (position : Nat)
    (rest : List Char) : d.Scans position [.symbol s] rest :=
  scans_plain hd (t := .symbol s) rfl
    (fun c hc => isUnquoted_of_own (d := d)
      (by simp [isOwnChar, List.all_eq_true.1 (mark_chars s h) c hc])) rest

/-- A solid token is scanned on its own where something delimits it. -/
theorem scans_solid (hd : d.BuiltIn) {t : Token} (h : d.Solid t) (unquoted : t.IsUnquoted)
    (position : Nat) {rest : List Char} (delimited : IsDelimited rest) :
    d.Scans position [t] rest := by
  have own := (PhraseOf.solid h : d.Phrase [t]).own_chars hd t List.mem_cons_self
  obtain ⟨closing, quote⟩ := delimited.head_ne hd
  cases h with
  | word hw => exact scans_plain hd rfl (fun c hc => isUnquoted_of_own (own c hc)) rest
  | verbatim text => exact scans_plain hd (t := .verbatim text) rfl unquoted rest
  | name n =>
    have := scanFrom_quoteName n closing
    simpa [Scans, characters, scanned, Token.positioned, scannedToken, tokenText] using this
  | bare hb => exact scans_plain hd rfl (fun c hc => isUnquoted_of_own (own c hc)) rest
  | @quoted lead tail content hm =>
    rw [ownText, String.toList_append] at own
    have leads : ∀ c ∈ lead.toList, isUnquoted c = true :=
      fun c hc => isUnquoted_of_own (own c (List.mem_append_left _ hc))
    have tails : ∀ c ∈ tail.toList, isUnquoted c = true :=
      fun c hc => isUnquoted_of_own (own c (List.mem_append_right _ hc))
    have next : (tail.toList ++ rest).head? ≠ some '\'' := by
      cases eq : tail.toList with
      | nil => exact quote
      | cons c cs =>
        rintro ⟨⟩
        exact absurd (tails '\'' (eq ▸ List.mem_cons_self)) (by decide)
    have := scanFrom_plain hd leads ((d.quoteText content).toList ++ (tail.toList ++ rest))
    rw [scanFrom_quoteText hd content next, scanFrom_plain hd tails] at this
    simpa [Scans, characters, scanned, Token.positioned, scannedToken, tokenText, constantText,
      String.toList_append, Function.comp_def] using this
  | placeholder b =>
    exact scans_plain hd (t := .placeholder b) rfl
      (fun c hc => (placeholderText_unquoted hd position c hc).1) rest

theorem delimited_cons {t : Token} {c : Char} (h : c ∈ [' ', ',', '.', '(', ')'])
    (text : ∀ position, (d.tokenText position t).toList = [c]) (position : Nat) (ts : List Token)
    (rest : List Char) : IsDelimited (d.characters position (t :: ts) ++ rest) := by
  intro x hx
  simp [characters, Token.positioned, text] at hx
  exact hx ▸ h

/-- A phrase is scanned token by token where no raw text in it has quotes. -/
theorem scans_unquoted (hd : d.BuiltIn) {ok : List Token → Prop} {ts : List Token}
    (h : d.PhraseOf ok ts) (unquoted : ∀ t ∈ ts, t.IsUnquoted) (position : Nat) {rest : List Char}
    (delimited : IsDelimited rest) : d.Scans position ts rest := by
  have mark {s : String} (hs : s ∈ marks) {position : Nat} {rest : List Char} :
      d.Scans position [.symbol s] rest := scans_mark hd hs position rest
  have space {position : Nat} {rest : List Char} : d.Scans position [.space] rest :=
    scans_space hd position rest
  have blank := delimited_cons (d := d) (t := .space) (c := ' ') (by decide)
    fun _ => by simp [tokenText]
  have comma := delimited_cons (d := d) (t := .symbol ",") (c := ',') (by decide)
    fun _ => by simp [tokenText]
  have point := delimited_cons (d := d) (t := .symbol ".") (c := '.') (by decide)
    fun _ => by simp [tokenText]
  have opening := delimited_cons (d := d) (t := .symbol "(") (c := '(') (by decide)
    fun _ => by simp [tokenText]
  have closing := delimited_cons (d := d) (t := .symbol ")") (c := ')') (by decide)
    fun _ => by simp [tokenText]
  induction h generalizing position rest with
  | solid h => exact scans_solid hd h (unquoted _ List.mem_cons_self) position delimited
  | operator h => exact mark (List.mem_append_right _ h)
  | owned owner h ih =>
    obtain ⟨-, -, unquoted⟩ := (List.forall_mem_cons.1 unquoted).imp_right List.forall_mem_cons.1
    exact (scans_solid hd (.name owner) trivial _ (point _ _ _)).cons
      ((mark (by decide)).cons (ih unquoted _ delimited))
  | negated h operand ih =>
    exact (mark (by decide)).cons (ih (List.forall_mem_cons.1 unquoted).2 _ delimited)
  | empty => exact (mark (by decide)).cons (mark (by decide))
  | enclosed h ih =>
    have inside := (List.forall_mem_append.1 (List.forall_mem_cons.1 unquoted).2).1
    exact (mark (by decide)).cons ((ih inside _ (closing _ _ _)).append (mark (by decide)))
  | called h arguments ih =>
    obtain ⟨head, unquoted⟩ := List.forall_mem_cons.1 unquoted
    exact (scans_solid hd h head _ (opening _ _ _)).cons (ih unquoted _ delimited)
  | spaced ha hb iha ihb =>
    obtain ⟨left, right⟩ := List.forall_mem_append.1 unquoted
    exact (iha left _ (blank _ _ _)).append
      (space.cons (ihb (List.forall_mem_cons.1 right).2 _ delimited))
  | listed ha hb iha ihb =>
    obtain ⟨left, right⟩ := List.forall_mem_append.1 unquoted
    have right := (List.forall_mem_cons.1 (List.forall_mem_cons.1 right).2).2
    exact (iha left _ (comma _ _ _)).append
      ((mark (by decide)).cons (space.cons (ihb right _ delimited)))

theorem scans_phrase (hd : d.BuiltIn) {ts : List Token} (h : d.Phrase ts)
    (tame : ∀ t ∈ ts, t.IsTame) (position : Nat) {rest : List Char}
    (delimited : IsDelimited rest) : d.Scans position ts rest :=
  scans_unquoted hd h (fun t ht => (tame t ht).unquoted) position delimited

/-! ### Parentheses of tokens -/

def openCharacters (d : Dialect) (position : Nat) (ts : List Token) : List Char :=
  (d.scanned position ts).filterMap Scanned.plain?

@[simp] theorem openCharacters_append (position : Nat) (a b : List Token) :
    d.openCharacters position (a ++ b) =
      d.openCharacters position a ++ d.openCharacters (Token.after position a) b := by
  simp [openCharacters]

theorem openCharacters_cons (position : Nat) (t : Token) (ts : List Token) :
    d.openCharacters position (t :: ts) =
      d.openCharacters position [t] ++ d.openCharacters (Token.after position [t]) ts :=
  openCharacters_append position [t] ts

@[simp] theorem filterMap_plain (cs : List Char) :
    (cs.map Scanned.plain).filterMap Scanned.plain? = cs := by
  rw [List.filterMap_map]
  exact List.filterMap_some

theorem openCharacters_plain {position : Nat} {t : Token}
    (plain : d.scannedToken (position, t) = (d.tokenText position t).toList.map .plain) :
    d.openCharacters position [t] = (d.tokenText position t).toList := by
  simp only [openCharacters, scanned, Token.positioned, List.flatMap_cons, List.flatMap_nil,
    List.append_nil, plain, filterMap_plain]

theorem depth_cons {position : Nat} {t : Token} (h : IsBalanced (d.openCharacters position [t]))
    (k : Nat) (ts : List Token) (rest : List Char) :
    parenDepth k (d.openCharacters position (t :: ts) ++ rest) =
      parenDepth k (d.openCharacters (Token.after position [t]) ts ++ rest) := by
  rw [openCharacters_cons, List.append_assoc, h.depth]

theorem word_balanced (hd : d.BuiltIn) : ∀ w ∈ keywords ++ d.typeWords, IsBalanced w.toList :=
  List.forall_mem_append.2 ⟨by decide, hd.of_databases (by decide) fun _ h => h⟩

theorem solid_balanced (hd : d.BuiltIn) {t : Token} (h : d.Solid t) (tame : t.IsTame)
    (position : Nat) : IsBalanced (d.openCharacters position [t]) := by
  cases h with
  | word hw =>
    rw [openCharacters_plain rfl]
    exact word_balanced hd _ hw
  | verbatim text =>
    rw [openCharacters_plain rfl]
    exact tame.balanced
  | name n => exact rfl
  | bare hb =>
    rw [openCharacters_plain rfl]
    refine isBalanced_of_none fun c hc => ?_
    rw [isParenthesis, Bool.or_eq_false_iff, beq_eq_false_iff_ne, beq_eq_false_iff_ne]
    constructor <;>
      · rintro rfl
        rcases bare_chars hb hc with h | h | h | h <;> cases h
  | @quoted lead tail content hm =>
    have margins : ∀ m ∈ d.quoteMargins, IsBalanced (m.1 ++ m.2).toList :=
      hd.of_databases (by decide) fun _ h => h
    have := margins _ hm
    rw [String.toList_append] at this
    have quoted : (Scanned.text content).plain? = none := rfl
    simpa only [openCharacters, scanned, Token.positioned, scannedToken, List.flatMap_cons,
      List.flatMap_nil, List.append_nil, List.filterMap_append, List.filterMap_cons_none quoted,
      filterMap_plain] using this
  | placeholder b =>
    rw [openCharacters_plain rfl]
    exact isBalanced_of_none fun c hc => (placeholderText_unquoted hd position c hc).2

/-- The parentheses of a phrase outside of quotes close each other. -/
theorem depth_phrase (hd : d.BuiltIn) {ts : List Token} (h : d.Phrase ts)
    (tame : ∀ t ∈ ts, t.IsTame) (position k : Nat) (rest : List Char) :
    parenDepth k (d.openCharacters position ts ++ rest) = parenDepth k rest := by
  have other {s : String} (hs : s.toList.all (!isParenthesis ·) = true) (position : Nat) :
      IsBalanced (d.openCharacters position [.symbol s]) := by
    rw [openCharacters_plain rfl]
    exact isBalanced_of_none fun c hc => by simpa using List.all_eq_true.1 hs c hc
  have opening (position k : Nat) (ts : List Token) (rest : List Char) :
      parenDepth k (d.openCharacters position (.symbol "(" :: ts) ++ rest) =
        parenDepth (k + 1) (d.openCharacters (Token.after position [.symbol "("]) ts ++ rest) := by
    rw [openCharacters_cons, openCharacters_plain rfl, tokenText,
      show "(".toList = ['('] from by decide]
    exact parenDepth_opening k _
  have closing (position k : Nat) (rest : List Char) :
      parenDepth (k + 1) (d.openCharacters position [Token.symbol ")"] ++ rest) =
        parenDepth k rest := by
    rw [openCharacters_plain rfl, tokenText, show ")".toList = [')'] from by decide]
    exact parenDepth_closing k rest
  have space (position : Nat) : IsBalanced (d.openCharacters position [.space]) := by
    rw [openCharacters_plain rfl, tokenText]
    decide
  have operators : ∀ s ∈ operatorSpellings, s.toList.all (!isParenthesis ·) = true := by decide
  have comma (position : Nat) : IsBalanced (d.openCharacters position [.symbol ","]) :=
    other (by decide) position
  induction h generalizing position k rest with
  | solid h => exact (solid_balanced hd h (tame _ List.mem_cons_self) position).depth k rest
  | operator h => exact (other (operators _ h) position).depth k rest
  | owned owner h ih =>
    obtain ⟨-, -, tame⟩ := (List.forall_mem_cons.1 tame).imp_right List.forall_mem_cons.1
    rw [depth_cons (solid_balanced hd (.name owner) trivial _), depth_cons (other (by decide) _),
      ih tame]
  | negated h unmarked ih =>
    rw [depth_cons (other (by decide) _), ih (List.forall_mem_cons.1 tame).2]
  | empty =>
    have := opening position k [.symbol ")"] rest
    rw [closing] at this
    exact this
  | @enclosed ts h ih =>
    have inside := (List.forall_mem_append.1 (List.forall_mem_cons.1 tame).2).1
    have := opening position k (ts ++ [Token.symbol ")"]) rest
    rw [openCharacters_append, List.append_assoc, ih inside, closing] at this
    exact this
  | called h arguments ih =>
    obtain ⟨head, tame⟩ := List.forall_mem_cons.1 tame
    rw [depth_cons (solid_balanced hd h head _), ih tame]
  | spaced ha hb iha ihb =>
    obtain ⟨left, right⟩ := List.forall_mem_append.1 tame
    rw [openCharacters_append, List.append_assoc, iha left, depth_cons (space _),
      ihb (List.forall_mem_cons.1 right).2]
  | listed ha hb iha ihb =>
    obtain ⟨left, right⟩ := List.forall_mem_append.1 tame
    have right := (List.forall_mem_cons.1 (List.forall_mem_cons.1 right).2).2
    rw [openCharacters_append, List.append_assoc, iha left, depth_cons (comma _),
      depth_cons (space _), ihb right]

end Dialect

end SelectCompiler
