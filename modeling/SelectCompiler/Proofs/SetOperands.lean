import SelectCompiler.Proofs.ClauseOrder

/-!
The operands of a set operation. Main statement: in its own parentheses the text of a set operation
is read as its two operands with one keyword between them, and nothing behind them orders or pages
the whole.
-/

namespace SelectCompiler

open Lexeme (picked wordIn? isWordOf cut)
open Token (Closes items clause enclosed listed optionalClause listClause)

variable {d : Dialect} {o : Options}

/-! ### Reading a set operation -/

def setWords : List String := ["UNION", "INTERSECT", "EXCEPT", "MINUS"]

/-- The words that begin an ordering or a window. -/
def windowWords : List String := ["ORDER", "TOP", "LIMIT", "OFFSET", "FETCH"]

/-- A set operation as it is read. -/
structure SetReading where
  left : List Lexeme
  keyword : String
  all : Bool
  right : List Lexeme
  /-- The ordering and the window of the whole. -/
  trailing : List Lexeme
deriving DecidableEq

namespace Lexeme

/-- The words of set operations, orderings and windows outside of parentheses. -/
def boundaryWords (ls : List Lexeme) : List String := picked (wordIn? (setWords ++ windowWords)) ls

/-- Reads two operands with a keyword between them. What begins like an ordering or a window behind
the second belongs to the whole. -/
def setReading? (ls : List Lexeme) : Option SetReading :=
  match cut (isWordOf setWords) ls with
  | (left, word w :: word "ALL" :: behind) =>
    let (right, trailing) := cut (isWordOf (setWords ++ windowWords)) behind
    some ⟨left, w, true, right, trailing⟩
  | (left, word w :: behind) =>
    let (right, trailing) := cut (isWordOf (setWords ++ windowWords)) behind
    some ⟨left, w, false, right, trailing⟩
  | _ => none

end Lexeme

open Lexeme (boundaryWords setReading?)

/-! ### The text of a set operation -/

namespace Dialect

variable (d)

def setKeyword : SetOperator → String
  | .union => "UNION"
  | .intersect => "INTERSECT"
  | .except => if d.name = "oracle" then "MINUS" else "EXCEPT"

/-- The text of an operand whose block has this text. -/
def operandText (paged : Bool) (block : String) : String :=
  if paged then (if d.name = "sqlite" then "SELECT * FROM (" else "(") ++ block ++ ")" else block

/-- What stands in the parentheses of a set operation whose blocks have these texts. -/
def setText (operation : SetOperation) (left right : String) : String :=
  d.operandText operation.left.isPaged left ++ " " ++ d.setKeyword operation.operator ++
    (if operation.distinct then " " else " ALL ") ++ d.operandText operation.right.isPaged right

def aliasText (aliasName : String) : String :=
  (if d.name = "oracle" then " " else " AS ") ++ d.quoteName aliasName

variable {d}

theorem setWord_eq (hd : d.BuiltIn) (operator : SetOperator) :
    d.setWord operator = d.setKeyword operator := by
  cases hd <;> cases operator <;> rfl

theorem textOf_operandTokens (hd : d.BuiltIn) (n : Nat) (paged : Bool) (ts : List Token) :
    d.textOf n (d.operandTokens paged ts) = d.operandText paged (d.textOf n ts) := by
  have lead : d.textOf n d.operandLead = if d.name = "sqlite" then "SELECT * FROM (" else "(" := by
    cases hd <;> rfl
  have unbound : Token.after n d.operandLead = n := by cases hd <;> rfl
  cases paged with
  | false => rfl
  | true =>
    simp only [operandTokens, if_true, textOf_append, lead, unbound, textOf_singleton, operandText]
    rfl

theorem textOf_aliased (hd : d.BuiltIn) (n : Nat) (aliasName : String) (ts : List Token) :
    d.textOf n (d.aliased aliasName ts) = d.textOf n ts ++ d.aliasText aliasName := by
  have lead (m : Nat) : d.textOf m d.aliasLead = if d.name = "oracle" then " " else " AS " := by
    cases hd <;> rfl
  rw [aliased, textOf_append, textOf_append, lead, textOf_singleton, tokenText, aliasText,
    String.append_assoc]

@[simp] theorem after_operandTokens (n : Nat) (paged : Bool) (ts : List Token) :
    Token.after n (d.operandTokens paged ts) = Token.after n ts := by
  unfold operandTokens operandLead
  split
  · split <;> simp
  · rfl

end Dialect

/-! ### Words outside of parentheses -/

/-- The words of a block without ordering and window, but for those of its operands. -/
def blockWords : List String :=
  ["SELECT", "DISTINCT", "FROM", "DUAL", "INNER", "LEFT", "CROSS", "OUTER", "JOIN", "APPLY", "ON",
    "WHERE", "GROUP", "BY", "HAVING"]

def Token.OfBlock : Token → Prop
  | .word w => w ∈ operandWords ++ blockWords
  | _ => True

instance : DecidablePred Token.OfBlock
  | .word w => inferInstanceAs (Decidable (w ∈ operandWords ++ blockWords))
  | .symbol _ | .space | .name _ | .verbatim _ | .constant _ | .placeholder _ => .isTrue trivial

theorem Token.OfOperand.ofBlock {t : Token} (h : t.OfOperand) : t.OfBlock := by
  cases t with
  | word w => exact List.mem_append_left _ h
  | _ => trivial

/-- Without an ordering and a window, nothing is written outside of parentheses that begins one. -/
theorem Select.outer_tokens (hd : d.BuiltIn) (o : Options) {q : Select} (h : q.isPaged = false) :
    Outer Token.OfBlock (q.tokens d o) := by
  simp only [isPaged, Bool.or_eq_false_iff, Bool.not_eq_false', List.isEmpty_iff,
    Option.isSome_eq_false_iff, Option.isNone_iff_eq_none] at h
  obtain ⟨⟨orderings, limit⟩, offset⟩ := h
  have expr (e : Expr) : Outer Token.OfBlock (e.tokens d o) :=
    ((operand_step hd o).ofExpr e).mono fun _ => Token.OfOperand.ofBlock
  have source (s : Source) : Outer Token.OfBlock (s.tokens d o) :=
    ((operand_step hd o).ofSource s).mono fun _ => Token.OfOperand.ofBlock
  have comma : Token.OfBlock (.symbol ",") := trivial
  have distinct : Outer Token.OfBlock (Dialect.distinctTokens (q.clauses d o).distinct) := by
    unfold Dialect.distinctTokens
    split
    · exact (Outer.word (by decide)).append .space
    · exact .nil
  have projections : Outer Token.OfBlock (Dialect.projectionTokens (q.clauses d o).projections) := by
    unfold Dialect.projectionTokens
    split
    · exact .token rfl trivial
    · refine .listed comma (List.forall_mem_map.2 fun p _ => (expr p.expr).append ?_)
      exact (Outer.projectionAlias p.expr p.aliasName).mono fun _ => Token.OfOperand.ofBlock
  have sources : Outer Token.OfBlock (d.sourceTokens (q.clauses d o).sources) := by
    have opened : ∀ w ∈ ["FROM"], Token.OfBlock (.word w) := by decide
    have listed := Outer.listClause opened comma
      (List.forall_mem_map.2 fun s (_ : s ∈ q.sources) => source s)
    have dual : Outer Token.OfBlock (clause ["FROM"] ++ [Token.word "DUAL"]) :=
      (Outer.clause (by decide)).append (.word (by decide))
    cases eq : q.sources with
    | nil =>
      rw [show (q.clauses d o).sources = [] by simp [clauses, eq]]
      cases hd <;> first | exact dual | exact .nil
    | cons s ss => simpa [Dialect.sourceTokens, clauses, eq] using listed
  have joins : Outer Token.OfBlock (q.clauses d o).joins.flatten := by
    refine .flatten (List.forall_mem_map.2 fun j _ => ?_)
    have lead : Outer Token.OfBlock (clause (joinWords j.kind)) :=
      .clause (by cases j.kind <;> decide)
    exact (lead.append (source j.source)).append
      (.optionalClause (by decide) (.options fun e _ => expr e))
  have «where» : Outer Token.OfBlock (optionalClause ["WHERE"] (q.clauses d o).predicate) :=
    .optionalClause (by decide) (.options fun e _ => expr e)
  have group : Outer Token.OfBlock (listClause ["GROUP", "BY"] (q.clauses d o).groupBy) :=
    .listClause (by decide) comma (List.forall_mem_map.2 fun e _ => expr e)
  have having : Outer Token.OfBlock (optionalClause ["HAVING"] (q.clauses d o).having) :=
    .optionalClause (by decide) (.options fun e _ => expr e)
  have unordered : d.orderingTokens (q.clauses d o).orderings (q.clauses d o).offset.isSome = [] := by
    simp [clauses, orderings, offset, Dialect.orderingTokens, listClause]
  have unpaged : d.frontTokens (q.clauses d o).limit (q.clauses d o).offset = [] ∧
      d.backTokens (q.clauses d o).limit (q.clauses d o).offset = [] := by
    simp only [clauses, limit, offset, Option.map_none]
    cases hd <;> exact ⟨rfl, rfl⟩
  have select : Outer Token.OfBlock [.word "SELECT", .space] :=
    (Outer.word (by decide)).append .space
  rw [tokens_eq, Dialect.assemble_eq, unordered, unpaged.1, unpaged.2]
  simpa using ((((((select.append distinct).append projections).append sources).append joins).append
    «where»).append group).append having

theorem Select.outer_operandTokens (hd : d.BuiltIn) (o : Options) (q : Select) :
    Outer Token.OfBlock (d.operandTokens q.isPaged (q.tokens d o)) := by
  cases paged : q.isPaged with
  | false => exact q.outer_tokens hd o paged
  | true =>
    have closes : Closes (q.tokens d o) := ((phrase_step hd o).ofSelect q).closes
    have lead : Outer Token.OfBlock [.word "SELECT", .space, .symbol "*", .space, .word "FROM",
        .space] :=
      ((((Outer.word (by decide)).append .space).append (.token (by decide) trivial)).append
        .space).append ((Outer.word (by decide)).append .space)
    simp only [Dialect.operandTokens, if_true, Dialect.operandLead]
    split
    · exact .enclosed closes
    · simpa [enclosed] using lead.append (.enclosed closes)

/-! ### Words of texts -/

/-- A raw text without the keyword of a set operation outside of its parentheses. -/
def IsUncombined (text : String) : Prop :=
  picked (wordIn? setWords) (lexemesOf (text.toList.map .plain)) = []

instance (text : String) : Decidable (IsUncombined text) :=
  inferInstanceAs (Decidable (picked _ _ = []))

theorem boundaryWords_eq_nil {text : String} (clauseless : IsClauseless text)
    (uncombined : IsUncombined text) :
    boundaryWords (lexemesOf (text.toList.map .plain)) = [] := by
  have windows : ∀ w ∈ windowWords, w ∈ clauseKeywords := by decide
  refine Lexeme.picked_eq_nil_iff.2 fun l hl => ?_
  have noSet := Lexeme.picked_eq_nil_iff.1 uncombined l hl
  cases l with
  | word w =>
    refine if_neg fun mem => ?_
    rcases List.mem_append.1 mem with set | window
    · rw [wordIn?, if_pos set] at noSet
      cases noSet
    · have keyword := windows _ window
      refine clauseless _ (List.mem_filterMap.2 ⟨_, hl, ?_⟩) keyword
      exact if_pos (List.mem_append_left _ keyword)
  | _ => rfl

theorem Dialect.picks_boundary (hd : d.BuiltIn) :
    d.Picks (wordIn? (setWords ++ windowWords)) where
  mark l h := by cases l <;> first | rfl | cases h
  name n := rfl
  text s := rfl
  dot := rfl
  unlettered c cs h := if_neg (Lexeme.toUpper_notMem (by decide) h cs)
  constants := by decide
  margins := hd.of_databases (by decide) fun _ h => h

/-- What is written without boundary words is read without them. -/
theorem boundaryWords_scanned (hd : d.BuiltIn) {ts : List Token} (h : d.Phrase ts)
    (outer : Outer Token.OfBlock ts) (tame : ∀ t ∈ ts, t.IsTame)
    (raw : ∀ text, .verbatim text ∈ ts →
      boundaryWords (lexemesOf (text.toList.map .plain)) = []) (n : Nat) :
    boundaryWords (lexemesOf (d.scanned n ts)) = [] := by
  have words : ∀ w ∈ operandWords ++ blockWords,
      boundaryWords (lexemesOf (w.toList.map .plain)) = [] := by decide +kernel
  have picked := (Dialect.picks_boundary hd).phrase hd h tame n isSeparated_nil
  rw [List.append_nil, lexemesOf_nil, Lexeme.picked_nil, List.append_nil] at picked
  rw [boundaryWords, picked, List.flatMap_eq_nil_iff]
  intro item mem
  cases item with
  | group content => rfl
  | token t =>
    have allowed := outer.forall_mem t mem
    cases t with
    | word w => exact words w allowed
    | verbatim text => exact raw text (Token.mem_of_mem_items mem)
    | symbol s =>
      rw [Item.picked]
      split <;> rfl
    | _ => rfl

namespace Lexeme

theorem passes_quiet {table : List String} (sub : ∀ w ∈ table, w ∈ setWords ++ windowWords)
    {ls : List Lexeme} (balanced : IsBalanced (ls.filterMap parenthesis?))
    (quiet : boundaryWords ls = []) : Passes (isWordOf table) ls where
  balanced := balanced
  begun l hl := by
    have none := picked_eq_nil_iff.1 quiet l hl
    cases l with
    | word w =>
      refine Option.isSome_eq_false_iff.2 (Option.isNone_iff_eq_none.2 (if_neg fun mem => ?_))
      rw [wordIn?, if_pos (sub _ mem)] at none
      cases none
    | _ => rfl

/-- Operands without boundary words are read as such. -/
theorem setReading?_eq {left right : List Lexeme} {w : String} (hw : w ∈ setWords) (distinct : Bool)
    (balancedLeft : IsBalanced (left.filterMap parenthesis?)) (quietLeft : boundaryWords left = [])
    (balancedRight : IsBalanced (right.filterMap parenthesis?))
    (quietRight : boundaryWords right = []) (first : right.head? ≠ some (word "ALL")) :
    setReading? (left ++ word w :: ((if distinct then [] else [word "ALL"]) ++ right)) =
        some ⟨left, w, !distinct, right, []⟩ ∧
      boundaryWords (left ++ word w :: ((if distinct then [] else [word "ALL"]) ++ right)) = [w] := by
  have keyword : ∀ w ∈ setWords, wordIn? setWords (word w) = some w ∧
      wordIn? (setWords ++ windowWords) (word w) = some w := by decide
  obtain ⟨set, boundary⟩ := keyword w hw
  have all : wordIn? (setWords ++ windowWords) (word "ALL") = none := by decide
  have stop (rest : List Lexeme) :
      cut (isWordOf setWords) (word w :: rest) = ([], word w :: rest) :=
    cut_cons rfl rfl (Option.isSome_iff_exists.2 ⟨w, set⟩) rest
  have passed : Passes (isWordOf (setWords ++ windowWords)) right :=
    passes_quiet (fun _ => id) balancedRight quietRight
  have trailing := passed.cut rfl rfl []
  rw [List.append_nil] at trailing
  have behind : cut (isWordOf (setWords ++ windowWords)) right = (right, []) := by
    rw [trailing]
    exact Prod.ext (List.append_nil _) rfl
  have quiet : picked (wordIn? (setWords ++ windowWords)) right = [] := quietRight
  constructor
  · rw [setReading?,
      (passes_quiet (fun w => List.mem_append_left _) balancedLeft quietLeft).cut rfl rfl, stop]
    cases distinct with
    | false => simp [behind]
    | true =>
      cases right with
      | nil => simp
      | cons l right =>
        have other : l ≠ word "ALL" := fun eq => first (by rw [eq]; rfl)
        simp [behind, other]
  · rw [boundaryWords, picked_append balancedLeft, show picked _ left = [] from quietLeft,
      picked_cons rfl, boundary]
    cases distinct with
    | false => simp [picked_silent (l := word "ALL") rfl all, quiet]
    | true => simp [quiet]

end Lexeme

/-! ### Texts of set operations -/

namespace Dialect

variable (d) in
theorem setKeyword_mem (operator : SetOperator) : d.setKeyword operator ∈ setWords := by
  unfold setKeyword
  split
  · decide
  · decide
  · split <;> decide

theorem lexemesOf_setTokens {w : String} (hw : w ∈ setWords) (distinct : Bool) (n : Nat)
    (left right : List Token) :
    lexemesOf (d.scanned n
        (left ++ clause (w :: if distinct then [] else ["ALL"]) ++ right)) =
      lexemesOf (d.scanned n left) ++ Lexeme.word w ::
        ((if distinct then [] else [Lexeme.word "ALL"]) ++
          lexemesOf (d.scanned (Token.after n left) right)) := by
  have single : ∀ w ∈ "ALL" :: setWords, lexemesOf (w.toList.map .plain) = [.word w] := by decide
  have separated (xs : List Scanned) : IsSeparated (.plain ' ' :: xs) := isSeparated_plain (by simp) xs
  cases distinct with
  | false =>
    have tokens : left ++ clause [w, "ALL"] ++ right =
        left ++ Token.space :: .word w :: .space :: .word "ALL" :: .space :: right := by
      simp [clause, Token.words]
    rw [if_neg (by simp), tokens, scanned_append, scanned_space, lexemesOf_append (separated _),
      lexemesOf_blank, lexemesOf_keyword (single w (List.mem_cons_of_mem _ hw)),
      lexemesOf_keyword (single _ List.mem_cons_self)]
    rfl
  | true =>
    have tokens : left ++ clause [w] ++ right =
        left ++ Token.space :: .word w :: .space :: right := by
      simp [clause, Token.words]
    rw [if_pos rfl, tokens, scanned_append, scanned_space, lexemesOf_append (separated _),
      lexemesOf_blank, lexemesOf_keyword (single w (List.mem_cons_of_mem _ hw))]
    rfl

/-- An operand begins with `SELECT` or a parenthesis. -/
theorem operand_head (n : Nat) (q : Select) (o : Options) :
    ∃ l ∈ [Lexeme.keyword .select, .opening],
      (lexemesOf (d.scanned n (d.operandTokens q.isPaged (q.tokens d o)))).head? = some l := by
  have select (ts : List Token) :
      (lexemesOf (d.scanned n (.word "SELECT" :: .space :: ts))).head? =
        some (.keyword .select) := by
    rw [lexemesOf_keyword (w := "SELECT") (l := .keyword .select) (by decide)]
    rfl
  have block : ∃ ts, q.tokens d o = .word "SELECT" :: .space :: ts := by
    rw [Select.tokens_eq, assemble_eq]
    simp only [List.cons_append, List.nil_append]
    exact ⟨_, rfl⟩
  obtain ⟨ts, block⟩ := block
  cases q.isPaged with
  | false => exact ⟨_, List.mem_cons_self, by rw [operandTokens, block]; exact select ts⟩
  | true =>
    simp only [operandTokens, if_true, operandLead]
    split
    · refine ⟨.opening, by simp, ?_⟩
      rw [List.append_assoc, List.singleton_append, scanned_mark (c := '(') (by decide)]
      rfl
    · exact ⟨_, List.mem_cons_self, select _⟩

end Dialect

namespace SetOperation

variable (operation : SetOperation)

/-- What is written in the parentheses of a set operation. -/
def innerTokens (d : Dialect) (o : Options) : List Token :=
  d.operandTokens operation.left.isPaged (operation.left.tokens d o) ++
    clause (d.setWord operation.operator :: if operation.distinct then [] else ["ALL"]) ++
    d.operandTokens operation.right.isPaged (operation.right.tokens d o)

variable (hd : d.BuiltIn) (o : Options)
include hd

theorem innerTokens_phrase : d.Phrase (operation.innerTokens d o) := by
  have phrase := (phrase_step hd o).ofSelect
  have keywords := Dialect.setWords_keyword hd operation.operator operation.distinct
  rw [innerTokens, List.append_assoc]
  exact Dialect.Tail.clause (by simp) keywords
    (Dialect.operandTokens_phrase _ (phrase operation.right)) _
    (Dialect.operandTokens_phrase _ (phrase operation.left))

theorem textOf_innerTokens (n : Nat) :
    d.textOf n (operation.innerTokens d o) =
      d.setText operation (d.textOf n (operation.left.tokens d o))
        (d.textOf (Token.after n (operation.left.tokens d o)) (operation.right.tokens d o)) := by
  have middle (m : Nat) : d.textOf m
      (clause (d.setWord operation.operator :: if operation.distinct then [] else ["ALL"])) =
        " " ++ d.setKeyword operation.operator ++ if operation.distinct then " " else " ALL " := by
    rw [Dialect.setWord_eq hd]
    cases operation.distinct <;>
      simp [clause, Token.words, Dialect.textOf, Dialect.texts, Dialect.tokenText] <;> rfl
  rw [innerTokens, Dialect.textOf_append, Dialect.textOf_append, Dialect.textOf_operandTokens hd,
    Dialect.textOf_operandTokens hd, middle, Dialect.setText]
  simp [String.append_assoc]

/-- Operands whose raw texts have no words of clauses and set operations are read apart. -/
theorem reading (tame : ∀ t ∈ operation.innerTokens d o, t.IsTame)
    (raw : ∀ text, .verbatim text ∈ operation.innerTokens d o →
      boundaryWords (lexemesOf (text.toList.map .plain)) = []) (n : Nat) :
    let left := d.textOf n (operation.left.tokens d o)
    let right := d.textOf (Token.after n (operation.left.tokens d o)) (operation.right.tokens d o)
    ∃ ls rs, d.lex (d.operandText operation.left.isPaged left) = some ls ∧
      d.lex (d.operandText operation.right.isPaged right) = some rs ∧
      (d.lex (d.setText operation left right)).map boundaryWords =
        some [d.setKeyword operation.operator] ∧
      (d.lex (d.setText operation left right)).bind setReading? =
        some ⟨ls, d.setKeyword operation.operator, !operation.distinct, rs, []⟩ := by
  intro left right
  have keyword := d.setKeyword_mem operation.operator
  have phrase (q : Select) : d.Phrase (d.operandTokens q.isPaged (q.tokens d o)) :=
    Dialect.operandTokens_phrase _ ((phrase_step hd o).ofSelect q)
  have parts : ∀ q ∈ [operation.left, operation.right],
      ∀ t ∈ d.operandTokens q.isPaged (q.tokens d o), t ∈ operation.innerTokens d o := by
    intro q hq t ht
    simp only [List.mem_cons, List.not_mem_nil, or_false] at hq
    rcases hq with rfl | rfl
    · exact List.mem_append_left _ (List.mem_append_left _ ht)
    · exact List.mem_append_right _ ht
  have tameIn (q : Select) (hq : q ∈ [operation.left, operation.right]) :
      ∀ t ∈ d.operandTokens q.isPaged (q.tokens d o), t.IsTame :=
    fun t ht => tame t (parts q hq t ht)
  have lexed (q : Select) (hq : q ∈ [operation.left, operation.right]) (n : Nat) :
      d.lex (d.operandText q.isPaged (d.textOf n (q.tokens d o))) =
        some (lexemesOf (d.scanned n (d.operandTokens q.isPaged (q.tokens d o)))) := by
    rw [← Dialect.textOf_operandTokens hd]
    exact Dialect.lex_tame hd (phrase q) (tameIn q hq) n
  have balanced (q : Select) (hq : q ∈ [operation.left, operation.right]) (n : Nat) :=
    Dialect.lexemesOf_scanned_balanced hd (phrase q) (tameIn q hq) n
  have quiet (q : Select) (hq : q ∈ [operation.left, operation.right]) (n : Nat) :=
    boundaryWords_scanned hd (phrase q) (q.outer_operandTokens hd o) (tameIn q hq)
      (fun text mem => raw text (parts q hq _ mem)) n
  have first (n : Nat) : (lexemesOf (d.scanned n (d.operandTokens operation.right.isPaged
      (operation.right.tokens d o)))).head? ≠ some (.word "ALL") := by
    obtain ⟨l, hl, head⟩ := Dialect.operand_head (d := d) n operation.right o
    rw [head]
    rintro ⟨⟩
    exact absurd hl (by decide)
  have whole := Dialect.lex_tame hd (operation.innerTokens_phrase hd o) tame n
  have text := operation.textOf_innerTokens hd o n
  rw [Dialect.textOf] at text
  rw [text, innerTokens, Dialect.setWord_eq hd, Dialect.lexemesOf_setTokens keyword,
    Dialect.after_operandTokens] at whole
  obtain ⟨reading, words⟩ := Lexeme.setReading?_eq keyword operation.distinct
    (balanced _ List.mem_cons_self n) (quiet _ List.mem_cons_self n)
    (balanced _ (by simp) (Token.after n (operation.left.tokens d o)))
    (quiet operation.right (by simp) _) (first _)
  refine ⟨_, _, lexed _ List.mem_cons_self n, lexed _ (by simp) _, ?_, ?_⟩
  · rw [whole, Option.map_some, words]
  · rw [whole, Option.bind_some, reading]

end SetOperation

/-- Every set operation of a compiled query stands in its text, in parentheses of its own. There the
only word that combines, orders or pages is its keyword; what stands before and behind it are the
texts of its operands, and each of these has the clauses of its own fields. -/
theorem Select.compile_setOperation (hd : d.BuiltIn) {s : Select} {out : Command}
    (tame : ∀ l ∈ s.leaves .ofFields, l.IsTame)
    (clauseless : ∀ l ∈ s.leaves .ofFields, ∀ text ∈ l.rawText?, IsClauseless text)
    (uncombined : ∀ l ∈ s.leaves .ofFields, ∀ text ∈ l.rawText?, IsUncombined text)
    (h : s.compile d o = .ok out) {operation : SetOperation}
    (contained : (Node.block s).Contains (.source (.set operation))) :
    ∃ before after left right,
      s.tokens d o = before ++ (Source.set operation).tokens d o ++ after ∧
      left = d.textOf (Token.after 1 before) (operation.left.tokens d o) ∧
      right = d.textOf (Token.after 1 (before ++ operation.left.tokens d o))
        (operation.right.tokens d o) ∧
      out.sql = d.textOf 1 before ++ ("(" ++ d.setText operation left right ++ ")" ++
        d.aliasText operation.aliasName) ++
        d.textOf (Token.after 1 (before ++ (Source.set operation).tokens d o)) after ∧
      d.clauseWords? left = some (operation.left.clauseWords d) ∧
      d.clauseWords? right = some (operation.right.clauseWords d) ∧
      ∃ ls rs, d.lex (d.operandText operation.left.isPaged left) = some ls ∧
        d.lex (d.operandText operation.right.isPaged right) = some rs ∧
        (d.lex (d.setText operation left right)).map boundaryWords =
          some [d.setKeyword operation.operator] ∧
        (d.lex (d.setText operation left right)).bind setReading? =
          some ⟨ls, d.setKeyword operation.operator, !operation.distinct, rs, []⟩ := by
  have none : s.faults d o = [] := (compile_ok h).1
  obtain ⟨before, after, split, text⟩ := text_contained hd h contained
  rw [show (Node.source (.set operation)).tokens d o = (Source.set operation).tokens d o from rfl]
    at split text
  have written : (Source.set operation).tokens d o =
      d.aliased operation.aliasName (enclosed (operation.innerTokens d o)) :=
    operation.tokens_eq d o
  have inner : ∀ t ∈ operation.innerTokens d o, t ∈ s.tokens d o := by
    intro t ht
    rw [split, written]
    simp [Dialect.aliased, enclosed, ht]
  have words (q : Select) (hq : q ∈ [operation.left, operation.right]) (n : Nat) :
      d.clauseWords? (d.textOf n (q.tokens d o)) = some (q.clauseWords d) := by
    have operand : (Node.source (.set operation)).Contains (.block q) := by
      simp only [List.mem_cons, List.not_mem_nil, or_false] at hq
      exact .part (m := .block q) (by rcases hq with rfl | rfl <;> simp [Node.parts]) (.self _)
    exact clauseWords?_textOf hd none tame clauseless (contained.trans operand) n
  have raw (text : String) (mem : .verbatim text ∈ operation.innerTokens d o) :=
    boundaryWords_eq_nil (raw_tokens hd none clauseless (inner _ mem))
      (raw_tokens hd none uncombined (inner _ mem))
  have reading := operation.reading hd o (fun t ht => tame_tokens hd none tame t (inner t ht)) raw
    (Token.after 1 before)
  refine ⟨before, after, _, _, split, rfl, rfl, ?_, words _ (by simp) _, words _ (by simp) _, ?_⟩
  · rw [text, written, Dialect.textOf_aliased hd, Dialect.textOf_enclosed,
      operation.textOf_innerTokens hd o, ← written, Token.after_append, Token.after_append]
  · rw [Token.after_append]
    exact reading

/-- The customers, and the one of the last order. -/
def customersAndLast : SetOperation where
  operator := .union
  distinct := false
  left := {
    projections := [⟨.column ⟨"id", none, .int, false⟩, "LIMIT"⟩]
    sources := [.table "customers" none none] }
  right := {
    projections := [⟨.column ⟨"customer", none, .int, false⟩, ""⟩]
    sources := [.table "orders" none none]
    orderings := [⟨.column ⟨"date", none, .date, false⟩, false⟩]
    limit := some (.literal ⟨.int 1, .int⟩) }
  aliasName := "UNION"

def ofCustomersAndLast : Select where
  projections := [⟨.column ⟨"LIMIT", some "UNION", .int, false⟩, ""⟩]
  sources := [.set customersAndLast]

theorem compile_setOperation_customersAndLast :
    (∃ out, ofCustomersAndLast.compile .sqlite {} = .ok out ∧
      out.sql = "SELECT \"UNION\".\"LIMIT\" FROM (SELECT \"id\" AS \"LIMIT\" FROM \"customers\"" ++
        " UNION ALL SELECT * FROM (SELECT \"customer\" FROM \"orders\" ORDER BY \"date\" DESC" ++
        " LIMIT 1)) AS \"UNION\"") ∧
    ∃ n left right ls rs, left = Dialect.sqlite.textOf n (customersAndLast.left.tokens .sqlite {}) ∧
      Dialect.sqlite.clauseWords? right = some ["SELECT", "FROM", "ORDER", "BY", "LIMIT"] ∧
      (Dialect.sqlite.lex (Dialect.sqlite.setText customersAndLast left right)).bind setReading? =
        some ⟨ls, "UNION", true, rs, []⟩ := by
  have inner : (Node.block ofCustomersAndLast).Contains (.source (.set customersAndLast)) :=
    .part (m := .source (.set customersAndLast)) (by simp [Node.parts, ofCustomersAndLast]) (.self _)
  obtain ⟨before, after, left, right, -, leftText, -, -, -, words, ls, rs, -, -, -, reading⟩ :=
    Select.compile_setOperation .sqlite (o := {}) (s := ofCustomersAndLast) (by decide) (by decide)
      (by decide) rfl inner
  exact ⟨⟨_, rfl, by decide +kernel⟩, _, left, right, ls, rs, leftText, words, reading⟩

end SelectCompiler
