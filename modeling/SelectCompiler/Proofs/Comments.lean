import Mathlib.Data.List.Chain
import Mathlib.Data.List.Infix
import SelectCompiler.Proofs.Text.PhraseLexemes
import SelectCompiler.Proofs.Quoting
import SelectCompiler.Proofs.Tree.NodeLeaves

/-!
Comments. Two characters open one outside of quotes, and minus signs come from operators, numbers
and raw texts alike. Main statement: where no raw text of a tree has a comment, the finished text has
none.
-/

namespace SelectCompiler

/-! ### Characters that open a comment -/

def startsComment (x y : Scanned) : Bool :=
  (x == .plain '-' && y == .plain '-') || (x == .plain '/' && y == .plain '*')

/-- No comment is opened outside of quotes. -/
def Uncommented (xs : List Scanned) : Prop := xs.IsChain fun x y => startsComment x y = false

instance (xs : List Scanned) : Decidable (Uncommented xs) :=
  inferInstanceAs (Decidable (List.IsChain _ xs))

/-- The characters that take part in opening a comment. -/
def isCommentChar (c : Char) : Bool := c == '-' || c == '/' || c == '*'

theorem startsComment_left {c : Char} (h : isCommentChar c = false) (y : Scanned) :
    startsComment (.plain c) y = false := by
  simp only [isCommentChar, Bool.or_eq_false_iff, beq_eq_false_iff_ne] at h
  simp [startsComment, h]

theorem startsComment_right (x : Scanned) {c : Char} (h : isCommentChar c = false) :
    startsComment x (.plain c) = false := by
  simp only [isCommentChar, Bool.or_eq_false_iff, beq_eq_false_iff_ne] at h
  simp [startsComment, h]

namespace Uncommented

variable {a b xs : List Scanned}

theorem not_opened (h : Uncommented xs) :
    ¬[.plain '-', .plain '-'] <:+: xs ∧ ¬[.plain '/', .plain '*'] <:+: xs := by
  have apart {a b : Scanned} (pair : [a, b] <:+: xs) : startsComment a b = false := by
    have chain := List.IsChain.infix h pair
    simpa using chain
  exact ⟨fun pair => absurd (apart pair) (by decide), fun pair => absurd (apart pair) (by decide)⟩

theorem cons {c : Char} (h : isCommentChar c = false) (hb : Uncommented b) :
    Uncommented (.plain c :: b) :=
  List.isChain_cons.2 ⟨fun y _ => startsComment_left h y, hb⟩

/-- A character that takes no part in comments keeps what stands around it apart. -/
theorem append {c : Char} (h : isCommentChar c = false) (ha : Uncommented a)
    (hb : Uncommented (.plain c :: b)) : Uncommented (a ++ Scanned.plain c :: b) := by
  refine List.isChain_append.2 ⟨ha, hb, fun x _ y hy => ?_⟩
  cases hy
  exact startsComment_right x h

theorem snoc {c : Char} (h : isCommentChar c = false) (ha : Uncommented a) :
    Uncommented (a ++ [Scanned.plain c]) :=
  append h ha (.singleton _)

theorem quoted {x : Scanned} (h : x.plain? = none) (ha : Uncommented a) (hb : Uncommented b) :
    Uncommented (a ++ x :: b) := by
  have apart (y : Scanned) : startsComment x y = false ∧ startsComment y x = false := by
    cases x with
    | plain c => cases h
    | _ => cases y <;> simp [startsComment]
  refine List.isChain_append.2 ⟨ha, List.isChain_cons.2 ⟨fun y _ => (apart y).1, hb⟩, ?_⟩
  rintro y - _ ⟨⟩
  exact (apart y).2

theorem plain {cs : List Char} (h : ∀ c ∈ cs, isCommentChar c = false) :
    Uncommented (cs.map .plain) := by
  induction cs with
  | nil => exact .nil
  | cons c cs ih =>
    exact cons (h c List.mem_cons_self) (ih fun c hc => h c (List.mem_cons_of_mem _ hc))

end Uncommented

/-- Raw text without quotes that opens no comment. -/
structure IsPlainText (text : String) : Prop where
  unquoted : ∀ c ∈ text.toList, isUnquoted c = true
  dashes : ¬['-', '-'] <:+: text.toList
  slash : ¬['/', '*'] <:+: text.toList

instance (text : String) : Decidable (IsPlainText text) :=
  decidable_of_iff (text.toList.all isUnquoted = true ∧ ¬['-', '-'] <:+: text.toList ∧
      ¬['/', '*'] <:+: text.toList)
    ⟨fun h => ⟨List.all_eq_true.1 h.1, h.2.1, h.2.2⟩,
      fun h => ⟨List.all_eq_true.2 h.unquoted, h.dashes, h.slash⟩⟩

theorem IsPlainText.uncommented {text : String} (h : IsPlainText text) :
    Uncommented (text.toList.map .plain) := by
  refine List.isChain_map _ |>.2 (List.isChain_iff_forall_rel_of_append_cons_cons.2 ?_)
  intro a b front back eq
  have pair : [a, b] <:+: text.toList := ⟨front, back, by simp [eq]⟩
  have apart : ¬(a = '-' ∧ b = '-') ∧ ¬(a = '/' ∧ b = '*') := by
    constructor
    · rintro ⟨rfl, rfl⟩
      exact h.dashes pair
    · rintro ⟨rfl, rfl⟩
      exact h.slash pair
  simpa [startsComment] using apart

/-! ### Tokens -/

def Token.IsPlainText : Token → Prop
  | .verbatim text => SelectCompiler.IsPlainText text
  | _ => True

namespace Dialect

variable {d : Dialect}

theorem vocabulary_comment {c : Char} (h : isVocabularyChar c = true) : isCommentChar c = false := by
  rw [Bool.eq_false_iff]
  intro comment
  simp only [isCommentChar, Bool.or_eq_true, beq_iff_eq] at comment
  rcases comment with (rfl | rfl) | rfl <;> cases h

theorem alphanum_comment {c : Char} (h : c.isAlphanum = true) : isCommentChar c = false :=
  vocabulary_comment (by simp [isVocabularyChar, h])

theorem uncommented_sign {sign : Char} {cs : List Char}
    (head : ∀ c ∈ cs.head?, isCommentChar c = false) (h : Uncommented (cs.map .plain)) :
    Uncommented ((sign :: cs).map .plain) := by
  refine List.isChain_cons.2 ⟨fun y hy => ?_, h⟩
  obtain ⟨c, hc, rfl⟩ := Option.map_eq_some_iff.1 (List.head?_map ▸ hy)
  exact startsComment_right _ (head c hc)

theorem uncommented_unsigned {cs : List Char} (h : IsUnsigned cs) :
    Uncommented (cs.map .plain) := by
  rcases h with ⟨w, hw, rfl⟩ | ⟨mantissa, exponent, rfl, ⟨-, body⟩, signed⟩
  · have letters := List.all_eq_true.1 (constantWord_chars w hw).2
    exact .plain fun c hc => alphanum_comment (by simp [Char.isAlphanum, letters c hc])
  · have front : Uncommented (mantissa.map .plain) := .plain fun c hc => by
      rcases body c hc with letter | rfl
      · exact alphanum_comment letter
      · decide
    rw [List.map_append]
    rcases signed with rfl | ⟨sign, digits, rfl, -, digit⟩
    · simpa using front
    · have digit (c : Char) (hc : c ∈ digits) : isCommentChar c = false :=
        alphanum_comment (isAlphanum_of_isDigit (digit c hc))
      have back : Uncommented ((sign :: digits).map .plain) :=
        uncommented_sign (fun c hc => digit c (List.mem_of_mem_head? hc)) (.plain digit)
      exact .append (by decide) front (.cons (by decide) back)

theorem uncommented_bare {cs : List Char} (h : IsBare cs) : Uncommented (cs.map .plain) := by
  rcases h with unsigned | ⟨ds, rfl, unsigned⟩
  · exact uncommented_unsigned unsigned
  · refine uncommented_sign (fun c hc => ?_) (uncommented_unsigned unsigned)
    obtain ⟨first, head, letter⟩ := unsigned_head unsigned
    rw [head] at hc
    cases hc
    exact alphanum_comment letter

theorem margin_comment (hd : d.BuiltIn) :
    ∀ m ∈ d.quoteMargins, (m.1 ++ m.2).toList.all (!isCommentChar ·) = true :=
  hd.of_databases (by decide) fun _ h => h

theorem uncommented_solid (hd : d.BuiltIn) {t : Token} (h : d.Solid t) (raw : t.IsPlainText)
    (n : Nat) : Uncommented (d.scannedToken (n, t)) := by
  cases h with
  | word hw =>
    refine .plain fun c hc => vocabulary_comment ?_
    exact List.all_eq_true.1 ((List.mem_append.1 hw).elim (keyword_chars _) (typeWord_chars hd _))
      c hc
  | verbatim text => exact IsPlainText.uncommented raw
  | name n => exact .singleton _
  | bare hb => exact uncommented_bare hb
  | @quoted lead tail content hm =>
    have margins := List.all_eq_true.1 (margin_comment hd _ hm)
    simp only [String.toList_append, List.mem_append, Bool.not_eq_true'] at margins
    exact .quoted rfl (.plain fun c hc => margins c (.inl hc)) (.plain fun c hc => margins c (.inr hc))
  | placeholder b =>
    have signs : ['?', '$', '@', 'p', ':'].all (!isCommentChar ·) = true := by decide
    refine .plain fun c hc => ?_
    rcases placeholderText_chars hd n c hc with sign | digit
    · simpa using List.all_eq_true.1 signs c sign
    · exact alphanum_comment (isAlphanum_of_isDigit digit)

/-- No minus sign comes first. -/
def Undashed (d : Dialect) (ts : List Token) : Prop :=
  ∀ n, (d.scanned n ts).head? ≠ some (.plain '-')

/-- A phrase opens no comment where no minus sign stands before another one. -/
theorem uncommented_phrase (hd : d.BuiltIn) {ts : List Token} (h : d.PhraseOf d.Undashed ts)
    (raw : ∀ t ∈ ts, t.IsPlainText) (n : Nat) : Uncommented (d.scanned n ts) := by
  have opening (n : Nat) (ts : List Token) :
      d.scanned n (.symbol "(" :: ts) = .plain '(' :: d.scanned n ts :=
    scanned_mark (by decide) n ts
  have closing (n : Nat) : d.scanned n [.symbol ")"] = [.plain ')'] :=
    scanned_mark (by decide) n []
  have operators : ∀ s ∈ operatorSpellings, Uncommented (s.toList.map .plain) := by decide
  induction h generalizing n with
  | solid h =>
    have := uncommented_solid hd h (raw _ List.mem_cons_self) n
    rwa [scanned_cons, scanned_nil, List.append_nil]
  | operator h =>
    rw [scanned_cons, scanned_nil, List.append_nil]
    exact operators _ h
  | @owned owner ts h ih =>
    have inner := (List.forall_mem_cons.1 (List.forall_mem_cons.1 raw).2).2
    rw [scanned_cons, scanned_mark (c := '.') (by decide)]
    exact .append (by decide) (.singleton _) (.cons (by decide) (ih inner _))
  | @negated ts h undashed ih =>
    rw [scanned_mark (c := '-') (by decide)]
    refine List.isChain_cons.2 ⟨fun y hy => ?_, ih (List.forall_mem_cons.1 raw).2 n⟩
    have : y ≠ .plain '-' := fun eq => undashed n (eq ▸ hy)
    simp [startsComment, this]
  | empty =>
    have parentheses := opening n [.symbol ")"]
    rw [closing] at parentheses
    rw [show Token.enclosed [] = [.symbol "(", .symbol ")"] from rfl, parentheses]
    decide
  | @enclosed ts h ih =>
    have inner := (List.forall_mem_append.1 (List.forall_mem_cons.1 raw).2).1
    rw [Token.enclosed, List.cons_append, opening, scanned_append, closing]
    exact .cons (by decide) (.snoc (by decide) (ih inner n))
  | @called t ts h arguments ih =>
    obtain ⟨head, inner⟩ := List.forall_mem_cons.1 raw
    have arguments := ih inner (Token.after n [t])
    rw [Token.enclosed, List.cons_append, opening] at arguments
    rw [scanned_cons, Token.enclosed, List.cons_append, opening]
    exact .append (by decide) (uncommented_solid hd h head n) arguments
  | spaced ha hb iha ihb =>
    obtain ⟨left, right⟩ := List.forall_mem_append.1 raw
    rw [scanned_append, scanned_space]
    exact .append (by decide) (iha left n)
      (.cons (by decide) (ihb (List.forall_mem_cons.1 right).2 _))
  | listed ha hb iha ihb =>
    obtain ⟨left, right⟩ := List.forall_mem_append.1 raw
    have right := (List.forall_mem_cons.1 (List.forall_mem_cons.1 right).2).2
    rw [scanned_append, scanned_mark (c := ',') (by decide), scanned_space]
    exact .append (by decide) (iha left n)
      (.cons (by decide) (.cons (by decide) (ihb right _)))

end Dialect

/-! ### Trees -/

/-- Raw text of a leaf has neither quotes nor a comment, and the name of a built-in function has no
minus sign in front. -/
def Leaf.IsUncommented : Leaf → Prop
  | .function _ name isBuiltIn =>
    isBuiltIn = true → IsPlainText name ∧ name.toList.head? ≠ some '-'
  | .target (.custom name) => IsPlainText name
  | .fragment text => IsPlainText text
  | _ => True

instance : (l : Leaf) → Decidable l.IsUncommented
  | .function _ name isBuiltIn =>
    inferInstanceAs (Decidable
      (isBuiltIn = true → IsPlainText name ∧ name.toList.head? ≠ some '-'))
  | .target (.custom name) => inferInstanceAs (Decidable (IsPlainText name))
  | .fragment text => inferInstanceAs (Decidable (IsPlainText text))
  | .column _ | .literal _ | .parameter _ | .table _ _ | .aliasName _ | .target .boolean
  | .target .int | .target .bigInt | .target .float | .target .decimal | .target .text
  | .target .date | .target .dateTime | .target .binary => inferInstanceAs (Decidable True)

theorem Leaf.IsUncommented.raw {l : Leaf} (h : l.IsUncommented) :
    ∀ text ∈ l.rawText?, IsPlainText text := by
  refine forall_rawText? ?_ ?_ ?_
  · rintro schema name rfl
    exact (h rfl).1
  · rintro name rfl
    exact h
  · rintro text rfl
    exact h

variable {d : Dialect} {o : Options}

/-- Raw text that an operand directly behind a minus sign starts with has no minus sign in front,
unless it is the name of a function. Only a parenthesis may follow. -/
theorem verbatim_operand {e : Expr} (direct : e.enclosedUnderMinus = false) {text : String}
    {ts : List Token} (eq : e.tokens d o = .verbatim text :: ts) :
    (text.toList.head? = some '-' → ∃ schema, .function schema text true ∈ e.leaves .ofFields) ∧
      ∀ t ∈ ts.head?, t = .symbol "(" := by
  cases Expr.isDirect direct with
  | column c =>
    rw [Expr.tokens] at eq
    cases h : givenName c.table <;> simp [h, Token.qualified] at eq
  | literal l sign =>
    simp only [Expr.tokens, Dialect.literalToken, List.cons.injEq] at eq
    obtain ⟨eq, -⟩ := eq
    split at eq <;> cases eq
  | function call =>
    rw [call.tokens_eq] at eq
    cases schema : d.schemaOf call.isBuiltIn call.schema with
    | some schema => simp [schema, Token.qualified] at eq
    | none =>
      cases builtIn : call.isBuiltIn with
      | false =>
        rw [schema, builtIn] at eq
        cases (List.cons.inj eq).1
      | true =>
        rw [schema, builtIn] at eq
        obtain ⟨name, rest⟩ := List.cons.inj eq
        refine ⟨fun _ => ⟨call.schema, ?_⟩, fun t ht => ?_⟩
        · rw [call.leaves_eq, builtIn, Token.verbatim.inj name]
          exact List.mem_cons_self
        · rw [← rest] at ht
          cases niladic : call.isNiladic <;> simp [niladic, Token.enclosed] at ht
          exact ht.symm
  | exist q negated => cases negated <;> cases eq
  | case operand whens otherwise type =>
    rw [Expr.case_tokens] at eq
    cases eq
  | fragment text sign =>
    cases eq
    refine ⟨fun minus => ?_, fun t ht => by cases ht⟩
    obtain ⟨cs, chars⟩ := List.head?_eq_some_iff.1 minus
    have trimmed : trimStart ('-' :: cs) = '-' :: cs := List.dropWhile_cons_of_neg (by decide)
    simp [Expr.startsWithMinus, chars, trimmed] at sign
  | parameter p | cast target operand type | subquery q => cases eq

/-- What stands directly behind a minus sign starts with none. -/
theorem undashed_operand (hd : d.BuiltIn) {e : Expr}
    (raw : ∀ l ∈ e.leaves .ofFields, l.IsUncommented) (direct : e.enclosedUnderMinus = false) :
    d.Undashed (e.tokens d o) := by
  intro n minus
  have phrase := (phrase_step hd o).ofExpr e
  obtain ⟨t, ts, eq⟩ := List.exists_cons_of_ne_nil phrase.ne_nil
  rw [eq, Dialect.scanned_cons, List.head?_append] at minus
  by_cases verbatim : ∃ text, t = .verbatim text
  · obtain ⟨text, rfl⟩ := verbatim
    obtain ⟨name, behind⟩ := verbatim_operand direct eq
    cases chars : text.toList with
    | cons c cs =>
      simp only [Dialect.scannedToken, Dialect.tokenText, chars, List.map_cons, List.head?_cons,
        Option.some_or, Option.some.injEq, Scanned.plain.injEq] at minus
      obtain ⟨schema, leaf⟩ := name (by rw [chars, minus]; rfl)
      exact (raw _ leaf rfl).2 (by rw [chars, minus]; rfl)
    | nil =>
      simp only [Dialect.scannedToken, Dialect.tokenText, chars, List.map_nil, List.head?_nil,
        Option.none_or] at minus
      cases ts with
      | nil => cases minus
      | cons t ts =>
        obtain rfl := behind t rfl
        rw [Dialect.scanned_mark (c := '(') (by decide)] at minus
        cases minus
  · have fixed : ∀ text, t = .verbatim text → text.toList.head?.any (!isOperatorChar ·) = true :=
      fun text h => absurd ⟨text, h⟩ verbatim
    obtain ⟨x, head, other⟩ := Dialect.token_head hd phrase t (eq ▸ List.mem_cons_self) fixed
      (unmarked_operand hd direct t (by rw [eq]; rfl)) n
    rw [head] at minus
    exact absurd (other '-' (Option.some.inj minus)) (by decide)

theorem plain_tokens (hd : d.BuiltIn) {s : Select} (none : s.faults d o = [])
    (raw : ∀ l ∈ s.leaves .ofFields, l.IsUncommented) : ∀ t ∈ s.tokens d o, t.IsPlainText := by
  intro t ht
  cases t with
  | verbatim text => exact Select.raw_tokens hd none (fun l hl => (raw l hl).raw) ht
  | _ => trivial

/-- The finished text is scanned to its end, and no two characters outside of quotes open a
comment. -/
theorem Select.compile_uncommented (hd : d.BuiltIn) {s : Select} {out : Command}
    (raw : ∀ l ∈ s.leaves .ofFields, l.IsUncommented) (h : s.compile d o = .ok out) :
    ∃ scanned, d.scan out.sql = some scanned ∧
      ¬[.plain '-', .plain '-'] <:+: scanned ∧ ¬[.plain '/', .plain '*'] <:+: scanned := by
  obtain ⟨none, rfl⟩ := compile_ok h
  have down (n : Node) (g : ∀ l ∈ n.leaves, l.IsUncommented) (m : Node) (hm : m ∈ n.parts) :
      ∀ l ∈ m.leaves, l.IsUncommented := fun l hl =>
    g l (n.leaves_perm.mem_iff.2 (List.mem_append_right _ (List.mem_flatMap.2 ⟨m, hm, hl⟩)))
  have enclosed (ts : List Token) : d.Undashed (Token.enclosed ts) := fun n => by
    rw [Token.enclosed, List.cons_append, Dialect.scanned_mark (c := '(') (by decide)]
    simp
  have phrase : d.PhraseOf d.Undashed (s.tokens d o) :=
    (phraseOf_step hd o down enclosed fun e raw direct => undashed_operand hd raw direct).ofSelect s
      raw
  have plain := plain_tokens hd none raw
  have unquoted : ∀ t ∈ s.tokens d o, t.IsUnquoted := fun t ht => by
    cases t with
    | verbatim text => exact (plain _ ht).unquoted
    | _ => trivial
  refine ⟨d.scanned 1 (s.tokens d o), ?_, (Dialect.uncommented_phrase hd phrase plain 1).not_opened⟩
  have delimited : Dialect.IsDelimited [] := fun c hc => by cases hc
  have scans : d.Scans 1 (s.tokens d o) [] :=
    Dialect.scans_unquoted hd phrase unquoted 1 delimited
  simpa [Dialect.Scans, Dialect.scan, Dialect.toList_command, Dialect.scanFrom,
    ScanState.complete] using scans

/-- Minus signs of every origin: operators, numbers and fragments, each behind another one. -/
def dashedOrders : Select :=
  let column : Expr := .column ⟨"amount", none, .int, false⟩
  let int (n : Int64) : Expr := .literal ⟨.int n, .bigInt⟩
  let negate (e : Expr) : Expr := .unary .negate e .int
  let minus (left right : Expr) : Expr := .binary left .subtract right .int
  { projections :=
      [⟨negate (negate column), ""⟩,
        ⟨minus column (minus (int (-1)) (negate (int (-9223372036854775808)))), ""⟩,
        ⟨minus (negate (.fragment " -1")) (.literal ⟨.float (.ofSign true 0), .float⟩), ""⟩,
        ⟨.function ⟨"COUNT", none, true, false, false, [true], [.fragment "*"], .int⟩, ""⟩]
    sources := [.table "--" none none] }

theorem compile_uncommented_dashedOrders : ∃ out scanned,
    dashedOrders.compile .oracle {} = .ok out ∧ Dialect.oracle.scan out.sql = some scanned ∧
    ¬[.plain '-', .plain '-'] <:+: scanned ∧ ¬[.plain '/', .plain '*'] <:+: scanned := by
  have raw : ∀ l ∈ dashedOrders.leaves .ofFields, l.IsUncommented := by decide
  obtain ⟨scanned, scan, free⟩ :=
    Select.compile_uncommented (d := .oracle) (o := {}) .oracle (s := dashedOrders) raw rfl
  exact ⟨_, scanned, rfl, scan, free⟩

end SelectCompiler
