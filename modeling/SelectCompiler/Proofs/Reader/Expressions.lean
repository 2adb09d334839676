import SelectCompiler.Proofs.Reader.TreeRuns
import SelectCompiler.Proofs.Tokens.LeafContents
import SelectCompiler.Proofs.Tree.LeafOrder

/-!
Tokens that are read as an expression. Main statements: for every form of expression, its tokens are
read as the expression if those of its operands are and the operands have the parentheses that the
expression asks for.
-/

namespace SelectCompiler

open Token (after words enclosedIf listed qualified)

variable {d : Dialect} {o : Options}

/-! ### The operator on top -/

theorem Reading.constant_ne_binary (ls : List Lexeme) (l : Reading) (op : BinaryOp) (r : Reading) :
    constant ls ≠ .binary l op r := by
  unfold constant
  split <;> exact nofun

theorem Expr.binary_of_reading {e : Expr} {n : Nat} {l r : Reading} {op : BinaryOp}
    (h : e.readingBy .attach d o n = .binary l op r) :
    ∃ left right type, e = .binary left op right type ∧ d.calls op = false := by
  cases e with
  | literal c => exact absurd h (Reading.constant_ne_binary _ l op r)
  | unary u operand type => cases u <;> cases h
  | binary left inner right type =>
    rw [readingBy] at h
    split at h
    · cases h
    · rename_i infix'
      obtain ⟨l', r', eq⟩ := Reading.attach_eq_binary inner
        (left.readingBy .attach d o n) (right.readingBy .attach d o (after n (left.tokens d o)))
      rw [eq] at h
      cases h
      exact ⟨left, right, type, rfl, by simpa using infix'⟩
  | function call =>
    rw [call.reading_eq] at h
    split at h <;> cases h
  | case operand whens otherwise type =>
    rw [case_reading] at h
    cases h
  | «exists» q negated => cases negated <;> cases h
  | like item pattern escape negated => cases escape <;> cases h
  | _ => cases h

theorem Expr.isBinary_reading {op : BinaryOp} (infix' : d.calls op = false) (e : Expr) (n : Nat) :
    (e.readingBy .attach d o n).isBinary op = e.isBinary op := by
  rw [Bool.eq_iff_iff]
  constructor
  · intro h
    obtain ⟨l, r, eq, -⟩ := Reading.isBinary_graft (x := .atom []) h
    obtain ⟨left, right, type, rfl, -⟩ := binary_of_reading eq
    simp [isBinary]
  · intro h
    cases e with
    | binary left inner right type =>
      obtain rfl : inner = op := by simpa [isBinary] using h
      obtain ⟨l, r, eq⟩ := Reading.attach_eq_binary inner
        (left.readingBy .attach d o n) (right.readingBy .attach d o (after n (left.tokens d o)))
      rw [readingBy, if_neg (by simp [infix']), eq]
      simp [Reading.isBinary]
    | _ => cases h

/-- Nothing is grafted onto an expression that does not continue the chain. -/
theorem Expr.graft_reading {op : BinaryOp} {e : Expr} (stops : e.continues d op = false)
    (x : Reading) (n : Nat) :
    Reading.graft op x (e.readingBy .attach d o n) = .binary x op (e.readingBy .attach d o n) := by
  refine Reading.graft_of_not (fun l inner r eq => ?_) x
  obtain ⟨left, right, type, rfl, infix'⟩ := binary_of_reading eq
  simpa [continues, infix'] using stops

/-! ### Names of functions -/

theorem Dialect.function_atomic {isBuiltIn : Bool} {name : String}
    (ordinary : (functionToken isBuiltIn name).IsOrdinary) (schema : Option String) (n : Nat) :
    d.lexemes n (qualified schema (functionToken isBuiltIn name)) ≠ [] ∧
      (d.lexemes n (qualified schema (functionToken isBuiltIn name))).all Lexeme.isAtomic =
        true := by
  cases isBuiltIn with
  | true =>
    have named : SelectCompiler.IsOrdinary name := ordinary
    have word := lexemes_verbatim (d := d) named n []
    cases schema <;> simp [qualified, functionToken, word, Lexeme.isAtomic]
  | false => cases schema <;> simp [qualified, functionToken, Lexeme.isAtomic]

/-! ### Expressions -/

/-- Wherever the tokens stand, they are read as the expression, and have as many placeholders.
Behind an operator whose chain the expression continues, what stands before the tokens goes into its
leftmost operand. -/
structure Expr.IsRead (escapes plus : Bool) (d : Dialect) (o : Options) (ts : List Token)
    (e : Expr) : Prop where
  placeholders : ∀ n, after n ts = after n (e.tokens d o)
  reads : ∀ n, Fits escapes (min 8 (e.shownRank plus)) (d.lexemes n ts)
    ((e.readingBy .attach d o n).shown plus)
  attaches : ∀ n op, op.leftDemand = op.rank → e.continues d op = true →
    Attaches escapes plus (d.lexemes n ts) op (Reading.graft op · (e.readingBy .attach d o n))

namespace Expr.IsRead

variable {escapes plus : Bool} {ts : List Token} {e : Expr}

theorem single (placeholders : ∀ n, after n ts = after n (e.tokens d o))
    (h : ∀ n, Fits escapes (min 8 (e.shownRank plus)) (d.lexemes n ts)
      ((e.readingBy .attach d o n).shown plus))
    (stops : ∀ op, e.continues d op = false) : e.IsRead escapes plus d o ts where
  placeholders := placeholders
  reads := h
  attaches n op _ continues := by simp [stops] at continues

theorem primary (stops : ∀ op, e.continues d op = false)
    (placeholders : ∀ n, after n ts = after n (e.tokens d o))
    (h : ∀ n, ∃ k, 8 ≤ k ∧
      Reads escapes (d.lexemes n ts) ((e.readingBy .attach d o n).shown plus) k) :
    e.IsRead escapes plus d o ts := by
  refine .single placeholders (fun n => ?_) stops
  obtain ⟨k, le, reads⟩ := h n
  exact reads.fits (by omega)

theorem fits (h : e.IsRead escapes plus d o ts) (n : Nat) :
    Fits escapes 0 (d.lexemes n ts) ((e.readingBy .attach d o n).shown plus) := by
  obtain ⟨k, -, reads⟩ := h.reads n
  exact reads.fits (Nat.zero_le k)

theorem runWith (h : e.IsRead escapes plus d o ts) (n : Nat) :
    ReadState.runWith escapes ⟨.operand, [], []⟩ (d.lexemes n ts) =
      some ((e.readingBy .attach d o n).shown plus) := by
  obtain ⟨k, -, reads⟩ := h.fits n
  have whole := reads [] [] [] (Nat.zero_le k) nofun
  rwa [List.append_nil] at whole

theorem run (h : e.IsRead false false d o ts) (n : Nat) :
    ReadState.run ⟨.operand, [], []⟩ (d.lexemes n ts) = some (e.readingBy .attach d o n) := by
  rw [← ReadState.runWith_false, h.runWith, Reading.shown_false]

theorem fits_enclosedIf (h : e.IsRead escapes plus d o ts) {q : Nat} (q8 : q ≤ 8) (needed : Bool)
    (le : needed = false → q ≤ e.shownRank plus) (n : Nat) :
    Fits escapes q (d.lexemes n (enclosedIf needed ts))
      ((e.readingBy .attach d o n).shown plus) := by
  refine (h.reads n).enclosedIf (by omega) fun bare => ?_
  have := le bare
  omega

/-! ### Binary operators -/

theorem attaches_right (h : e.IsRead escapes plus d o ts) {op : BinaryOp}
    (infix' : d.calls op = false) (n : Nat) :
    Attaches escapes plus (d.lexemes n (enclosedIf (e.enclosedOnRight op) ts)) op
      (Reading.attach op · (e.readingBy .attach d o n)) := by
  have low := (op.shown plus).rank_lt
  by_cases chain : op.isAssociative = true ∧ e.isBinary op = true
  · have bare := enclosedOnRight_of_chain chain.1 chain.2
    have noComparison : op.leftDemand = op.rank := by
      cases op <;> first | rfl | cases chain.1
    have goesOn : e.continues d op = true := by
      cases e with
      | binary left inner right type =>
        obtain rfl : inner = op := by simpa [Expr.isBinary] using chain.2
        simp [continues, BinaryOp.runsOn_self, infix']
      | _ => cases chain.2
    have attached := h.attaches n op noComparison goesOn
    have joined : (Reading.attach op · (e.readingBy .attach d o n)) =
        (Reading.graft op · (e.readingBy .attach d o n)) := by
      funext x
      rw [Reading.attach, isBinary_reading infix', if_pos (by simp [chain])]
    rw [bare, joined]
    exact attached
  · have apart : (Reading.attach op · (e.readingBy .attach d o n)) =
        (Reading.binary · op (e.readingBy .attach d o n)) := by
      funext x
      rw [Reading.attach, isBinary_reading infix', if_neg (by simpa using chain)]
    obtain ⟨k, le, reads⟩ := h.fits_enclosedIf (q := (op.shown plus).rank + 1) (by omega)
      (e.enclosedOnRight op) (fun bare => by
        have mixes : e.mixesWith op = false := by
          simp only [enclosedOnRight, Bool.or_eq_false_iff] at bare
          exact bare.2
        rcases enclosedOnRight_eq_false bare with tighter | chain'
        · exact shown_lt_shownRank tighter fun concat => concat ▸ mixes
        · exact absurd chain' chain) n
    rw [apart]
    exact .ofReads reads le

theorem attaches_left (h : e.IsRead escapes plus d o ts) {op inner : BinaryOp}
    (chains : op.leftDemand = op.rank) (runs : op.runsOn inner = true)
    (infix' : d.calls inner = false) (n : Nat) :
    Attaches escapes plus (d.lexemes n (enclosedIf (e.enclosedOnLeft inner) ts)) op
      (Reading.graft op · (e.readingBy .attach d o n)) := by
  have low := (op.shown plus).rank_lt
  cases continues : e.continues d op with
  | true =>
    rw [enclosedOnLeft_of_continues chains runs continues]
    exact h.attaches n op chains continues
  | false =>
    have apart : (Reading.graft op · (e.readingBy .attach d o n)) =
        (Reading.binary · op (e.readingBy .attach d o n)) :=
      funext fun x => graft_reading continues x n
    obtain ⟨k, le, reads⟩ := h.fits_enclosedIf (q := (op.shown plus).rank + 1) (by omega)
      (e.enclosedOnLeft inner) (fun bare => by
        refine shown_lt_shownRank (rank_lt_of_not_continues chains runs infix' bare continues)
          fun concat => ?_
        subst concat
        obtain rfl := BinaryOp.eq_of_runsOn (by decide) runs
        simp only [enclosedOnLeft, Bool.or_eq_false_iff] at bare
        exact bare.2) n
    rw [apart]
    exact .ofReads reads le

variable {left right : Expr} {first second : List Token} {op : BinaryOp}

theorem binaryCall (type : SqlType) (call : d.calls op = true) (encloseLeft encloseRight : Bool)
    (hl : left.IsRead escapes plus d o first) (hr : right.IsRead escapes plus d o second) :
    (Expr.binary left op right type).IsRead escapes plus d o
      (d.binaryTokens op encloseLeft encloseRight first second) := by
  refine .single (fun n => by simp [tokens, hl.placeholders, hr.placeholders]) (fun n => ?_)
    fun op' => by simp [continues, call]
  obtain ⟨j, -, x⟩ := hl.fits n
  obtain ⟨k, -, y⟩ := hr.fits (after n first)
  have whole := @Reads.call _ [.word "CONCAT"] _ _ (by simp) rfl (ReadsAll.cons x (.single y))
  rw [Dialect.lexemes_callTokens _ _ _ _ _ call, readingBy, if_pos call, ← hl.placeholders]
  exact whole.fits (by omega)

theorem binaryInfix (type : SqlType) (shows : d.Shows plus op) (infix' : d.calls op = false)
    (hl : left.IsRead escapes plus d o first) (hr : right.IsRead escapes plus d o second) :
    (Expr.binary left op right type).IsRead escapes plus d o
      (d.binaryTokens op (left.enclosedOnLeft op) (right.enclosedOnRight op) first second) := by
  have reading (n : Nat) : (Expr.binary left op right type).readingBy .attach d o n =
      Reading.attach op (left.readingBy .attach d o n)
        (right.readingBy .attach d o (after n first)) := by
    rw [readingBy, if_neg (by simp [infix']), ← hl.placeholders]
  have y (n : Nat) := hr.attaches_right infix' (after n first)
  refine ⟨fun n => by simp [tokens, hl.placeholders, hr.placeholders], fun n => ?_,
    fun n op' chains continues => ?_⟩
  · obtain ⟨k, le, x⟩ := hl.fits_enclosedIf (q := (op.shown plus).leftDemand)
      (Nat.le_of_lt (op.shown plus).leftDemand_lt) _ shown_leftDemand_le n
    have whole := x.binary le (y n)
    rw [Dialect.lexemes_infixTokens _ _ _ _ _ shows infix', reading]
    exact whole.fits (Nat.min_le_right 8 (op.shown plus).rank)
  · obtain ⟨runs, -⟩ : op'.runsOn op = true ∧ _ := by simpa [Expr.continues] using continues
    have x := hl.attaches_left chains runs infix' n
    have same := BinaryOp.rank_of_runsOn runs
    have inner : op.leftDemand = op.rank := by
      rw [BinaryOp.leftDemand_eq_iff] at chains ⊢
      omega
    have whole := x.binary (BinaryOp.shown_rank_of_runsOn runs plus)
      (BinaryOp.shown_leftDemand_eq inner plus) (y n)
    rw [Dialect.lexemes_infixTokens _ _ _ _ _ shows infix', reading]
    simpa only [Reading.graft_attach runs] using whole

/-! ### Primaries -/

theorem column (c : Column) :
    (Expr.column c).IsRead escapes plus d o ((Expr.column c).tokens d o) := by
  refine .primary (fun _ => rfl) (fun _ => rfl) fun n => ⟨9, by omega, ?_⟩
  rw [readingBy, Reading.shown]
  refine Reads.atom ?_ ?_
  · rw [tokens]
    cases givenName c.table <;> simp [qualified]
  · rw [tokens]
    cases givenName c.table <;> simp [qualified, Lexeme.isAtomic]

theorem parameter (hd : d.BuiltIn) (p : Parameter) :
    (Expr.parameter p).IsRead escapes plus d o ((Expr.parameter p).tokens d o) := by
  refine .primary (fun _ => rfl) (fun _ => rfl) fun n => ⟨9, by omega, ?_⟩
  rw [readingBy, Reading.shown]
  refine Reads.atom ?_ ?_
  · simp [tokens, Dialect.lexemes_placeholder hd]
  · simp [tokens, Dialect.lexemes_placeholder hd, Lexeme.isAtomic]

theorem literal (hd : d.BuiltIn) (l : Literal) :
    (Expr.literal l).IsRead escapes plus d o ((Expr.literal l).tokens d o) := by
  refine .primary (fun _ => rfl) (fun _ => rfl) fun n => ?_
  obtain ⟨ls, ne, atomic, eq | ⟨-, eq⟩⟩ := Dialect.literal_atomic hd o l n
  · have constant : Reading.constant ls = .atom ls := by
      cases ls with
      | nil => rfl
      | cons l ls =>
        cases l with
        | operator op => cases op <;> simp [Lexeme.isAtomic] at atomic
        | _ => rfl
    rw [tokens, readingBy, eq, constant]
    exact ⟨9, by omega, .atom ne atomic⟩
  · rw [tokens, readingBy, eq]
    exact ⟨8, by omega, (Reads.atom ne atomic).negate (by omega)⟩

theorem subquery {q : Select} (block : ∀ n, IsBlock (d.lexemes n (q.tokens d o))) :
    (Expr.subquery q).IsRead escapes plus d o (Token.enclosed (q.tokens d o)) := by
  refine .primary (fun _ => rfl) (fun _ => rfl) fun n => ⟨9, by omega, ?_⟩
  rw [readingBy, Dialect.lexemes_enclosed]
  exact .subquery (block n)

theorem exist {q : Select} (block : ∀ n, IsBlock (d.lexemes n (q.tokens d o))) :
    (Expr.exists q false).IsRead escapes plus d o
      (.word "EXISTS" :: .space :: Token.enclosed (q.tokens d o)) := by
  refine .primary (fun _ => rfl) (fun n => by simp [tokens])
    fun n => ⟨9, by omega, ?_⟩
  rw [readingBy, Dialect.lexemes_reserved (l := .keyword .exists) (by decide),
    Dialect.lexemes_space, Dialect.lexemes_enclosed]
  exact .exists (block n)

/-! ### Unary operators and tests -/

theorem not (h : e.IsRead escapes plus d o ts) (type : SqlType) :
    (Expr.unary .not e type).IsRead escapes plus d o
      (.word "NOT" :: .space :: enclosedIf e.enclosedUnderNot ts) := by
  refine .single (fun n => by simp [tokens, h.placeholders]) (fun n => ?_) fun _ => rfl
  obtain ⟨k, le, operand⟩ := h.fits_enclosedIf (q := 3) (by omega) e.enclosedUnderNot
    (fun bare => Nat.le_trans (by simpa [enclosedUnderNot] using bare) (e.rank_le_shownRank plus)) n
  rw [readingBy, Dialect.lexemes_reserved (l := .keyword .not) (by decide),
    Dialect.lexemes_space]
  exact (operand.not le).fits (by simp [Expr.shownRank, Expr.rank])

theorem negate (h : e.IsRead escapes plus d o ts) (type : SqlType) :
    (Expr.unary .negate e type).IsRead escapes plus d o
      (.symbol "-" :: enclosedIf e.enclosedUnderMinus ts) := by
  refine .single (fun n => by simp [tokens, h.placeholders]) (fun n => ?_) fun _ => rfl
  obtain ⟨k, le, operand⟩ := h.fits_enclosedIf (q := 8) (by omega) e.enclosedUnderMinus
    (fun bare => by
      simp only [enclosedUnderMinus, Bool.or_eq_false_iff, decide_eq_false_iff_not] at bare
      have shown := e.rank_le_shownRank plus
      omega) n
  rw [readingBy, Dialect.lexemes_minus]
  exact (operand.negate le).fits (by simp [Expr.shownRank, Expr.rank])

theorem tested (h : e.IsRead escapes plus d o ts) (n : Nat) :
    Fits escapes 5 (d.lexemes n (enclosedIf e.enclosedInTest ts))
      ((e.readingBy .attach d o n).shown plus) :=
  h.fits_enclosedIf (by omega) _ (fun bare => by
    simp only [enclosedInTest, decide_eq_false_iff_not] at bare
    have shown := e.rank_le_shownRank plus
    omega) n

theorem isNull (h : e.IsRead escapes plus d o ts) (type : SqlType) :
    (Expr.unary .isNull e type).IsRead escapes plus d o
      (enclosedIf e.enclosedInTest ts ++ Token.space :: words ["IS", "NULL"]) := by
  refine .single (fun n => by simp [tokens, h.placeholders]) (fun n => ?_) fun _ => rfl
  obtain ⟨k, le, operand⟩ := h.tested n
  rw [readingBy, Dialect.lexemes_append, Dialect.lexemes_isNull]
  exact (operand.isNull le false).fits (by simp [Expr.shownRank, Expr.rank])

theorem isNotNull (h : e.IsRead escapes plus d o ts) (type : SqlType) :
    (Expr.unary .isNotNull e type).IsRead escapes plus d o
      (enclosedIf e.enclosedInTest ts ++ Token.space :: words ["IS", "NOT", "NULL"]) := by
  refine .single (fun n => by simp [tokens, h.placeholders]) (fun n => ?_) fun _ => rfl
  obtain ⟨k, le, operand⟩ := h.tested n
  rw [readingBy, Dialect.lexemes_append, Dialect.lexemes_isNotNull]
  exact (operand.isNull le true).fits (by simp [Expr.shownRank, Expr.rank])

theorem cast (hd : d.BuiltIn) (h : e.IsRead escapes plus d o ts) {target : SqlType} (type : SqlType)
    (ordinary : (d.typeToken target).IsOrdinary) :
    (Expr.unary (.cast target) e type).IsRead escapes plus d o
      (.word "CAST" :: Token.enclosed (ts ++ Token.clause ["AS"] ++ [d.typeToken target])) := by
  have unbound (n m : Nat) : d.lexemes n [d.typeToken target] = d.lexemes m [d.typeToken target] := by
    cases target <;> rw [Dialect.lexemes_singleton, Dialect.lexemes_singleton] <;> rfl
  refine .primary (fun _ => rfl) (fun n => by simp [tokens, h.placeholders])
    fun n => ⟨9, by omega, ?_⟩
  obtain ⟨k, -, operand⟩ := h.fits n
  have balanced := Dialect.lexemes_balanced hd (.solid (d.typeToken_solid target))
    (by simpa using ordinary) n
  rw [readingBy, Dialect.lexemes_reserved (l := .keyword .cast) (by decide),
    Dialect.lexemes_enclosed, Dialect.lexemes_append, Dialect.lexemes_append,
    Dialect.lexemes_clause (l := .keyword .as) (by decide), unbound _ n, List.append_assoc,
    List.append_assoc, List.singleton_append]
  exact operand.cast balanced

theorem inSelect {q : Select} (hi : e.IsRead escapes plus d o ts)
    (block : ∀ n, IsBlock (d.lexemes n (q.tokens d o))) (negated : Bool) :
    (Expr.inSelect e q negated).IsRead escapes plus d o
      (enclosedIf e.enclosedInTest ts ++ testWords negated "IN" ++
        Token.enclosed (q.tokens d o)) := by
  refine .single (fun n => by simp [tokens, hi.placeholders]) (fun n => ?_) fun _ => rfl
  obtain ⟨k, le, item⟩ := hi.tested n
  have whole := item.inSelect le (block (after n ts)) negated
  rw [readingBy, ← hi.placeholders, Dialect.lexemes_append, Dialect.lexemes_append,
    Dialect.lexemes_testWords (l := .keyword .in) (by decide), Token.after_append,
    Token.after_enclosedIf, Token.after_testWords, Dialect.lexemes_enclosed, List.append_assoc,
    List.append_assoc]
  exact whole.fits (by simp [Expr.shownRank, Expr.rank])

theorem like {pattern : Expr} (hi : e.IsRead escapes plus d o ts)
    (hp : pattern.IsRead escapes plus d o second) (negated : Bool) :
    (Expr.like e pattern none negated).IsRead escapes plus d o
      (enclosedIf e.enclosedInTest ts ++ testWords negated "LIKE" ++
        enclosedIf pattern.enclosedInTest second) := by
  refine .single (fun n => by simp [tokens, hi.placeholders, hp.placeholders]) (fun n => ?_)
    fun _ => rfl
  obtain ⟨j, le, item⟩ := hi.tested n
  obtain ⟨k, le', second⟩ := hp.tested (after n ts)
  have whole := item.like le second le' negated
  rw [readingBy, ← hi.placeholders, Dialect.lexemes_append, Dialect.lexemes_append,
    Dialect.lexemes_testWords (l := .keyword .like) (by decide), Token.after_append,
    Token.after_enclosedIf, Token.after_testWords, List.append_assoc, List.append_assoc]
  exact whole.fits (by simp [Expr.shownRank, Expr.rank])

/-! ### Lists of expressions -/

theorem after_listed {tss : List (List Token)} {es : List Expr}
    (h : List.Forall₂ (Expr.IsRead escapes plus d o) tss es) (n : Nat) :
    after n (listed tss) = after n (listed (es.map (Expr.tokens d o))) := by
  induction h generalizing n with
  | nil => rfl
  | @cons ts e tss es first rest ih =>
    cases rest with
    | nil => simpa [listed] using first.placeholders n
    | cons second rest =>
      have tail := ih (after n (e.tokens d o))
      simp only [listed, List.map_cons, List.intercalate_cons_cons, Token.after_append,
        first.placeholders] at tail ⊢
      simpa using tail

theorem readsAll {tss : List (List Token)} {es : List Expr} (ne : es ≠ [])
    (h : List.Forall₂ (Expr.IsRead escapes plus d o) tss es) (n : Nat) :
    ReadsAll escapes (d.lexemes n (listed tss))
      ((Expr.readingsBy .attach d o n es).map (Reading.shown plus)) := by
  induction h generalizing n with
  | nil => exact absurd rfl ne
  | @cons ts e tss es first rest ih =>
    obtain ⟨k, -, reads⟩ := first.fits n
    cases rest with
    | nil => simpa [listed, Expr.readingsBy] using ReadsAll.single reads
    | cons second rest =>
      have tail := ih (by simp) (after n ts)
      rw [readingsBy, ← first.placeholders, List.map_cons]
      rw [listed, List.intercalate_cons_cons, ← listed, List.append_assoc, Dialect.lexemes_append,
        List.cons_append, Dialect.lexemes_comma, List.singleton_append, Dialect.lexemes_space]
      exact ReadsAll.cons reads tail

theorem inList {values : List Expr} {tss : List (List Token)} (hi : e.IsRead escapes plus d o ts)
    (ne : values ≠ []) (hv : List.Forall₂ (Expr.IsRead escapes plus d o) tss values)
    (negated : Bool) :
    (Expr.inList e values negated).IsRead escapes plus d o
      (enclosedIf e.enclosedInTest ts ++ testWords negated "IN" ++
        Token.enclosed (listed tss)) := by
  refine .single (fun n => by simp [tokens, hi.placeholders, after_listed hv]) (fun n => ?_)
    fun _ => rfl
  obtain ⟨k, le, item⟩ := hi.tested n
  have whole := item.inList le (readsAll ne hv (after n ts)) negated
  rw [readingBy, ← hi.placeholders, Reading.shown, Reading.shownEach_eq, Dialect.lexemes_append,
    Dialect.lexemes_append, Dialect.lexemes_testWords (l := .keyword .in) (by decide),
    Token.after_append, Token.after_enclosedIf, Token.after_testWords, Dialect.lexemes_enclosed,
    List.append_assoc, List.append_assoc]
  exact whole.fits (by simp [Expr.shownRank, Expr.rank])

theorem function (call : FunctionCall) {tss : List (List Token)}
    (bare : call.isNiladic = true → call.arguments = [])
    (ordinary : (Dialect.functionToken call.isBuiltIn call.name).IsOrdinary)
    (h : List.Forall₂ (Expr.IsRead escapes plus d o) tss call.arguments) :
    (Expr.function call).IsRead escapes plus d o
      (qualified (d.schemaOf call.isBuiltIn call.schema)
        (Dialect.functionToken call.isBuiltIn call.name) ++
        if call.isNiladic then [] else Token.enclosed (listed tss)) := by
  have unbound (n : Nat) : after n (qualified (d.schemaOf call.isBuiltIn call.schema)
      (Dialect.functionToken call.isBuiltIn call.name)) = n := by
    cases d.schemaOf call.isBuiltIn call.schema <;> cases call.isBuiltIn <;> rfl
  refine .primary (fun _ => rfl) (fun n => ?_) fun n => ⟨9, by omega, ?_⟩
  · rw [call.tokens_eq, Token.after_append, Token.after_append]
    split
    · rfl
    · rw [Token.after_enclosed, Token.after_enclosed, after_listed h]
  obtain ⟨ne, atomic⟩ := Dialect.function_atomic ordinary (d.schemaOf call.isBuiltIn call.schema) n
  rw [call.reading_eq, Dialect.lexemes_append, unbound]
  cases niladic : call.isNiladic with
  | true => simpa [bare niladic, Reading.shown] using Reads.atom ne atomic
  | false =>
    rw [if_neg Bool.false_ne_true, Dialect.lexemes_enclosed, Bool.false_and,
      if_neg Bool.false_ne_true, Reading.shown, Reading.shownEach_eq]
    cases eq : call.arguments with
    | nil =>
      rw [eq] at h
      cases h
      exact .emptyCall ne atomic
    | cons e es => exact .call ne atomic (eq ▸ readsAll (by simp [eq]) h n)

/-! ### Cases -/

variable {wss : List (List Token × List Token)} {whens : List (Expr × Expr)}
  {ts? : Option (List Token)} {e? : Option Expr}

theorem after_arms (h : List.Forall₂ (fun ws w => Expr.IsRead escapes plus d o ws.1 w.1 ∧
      Expr.IsRead escapes plus d o ws.2 w.2) wss whens) (n : Nat) :
    after n (wss.map fun ws => Token.arm ws.1 ws.2).flatten =
      after n (tokensWhens d o whens).flatten := by
  induction h generalizing n with
  | nil => rfl
  | cons first rest ih =>
    rw [tokensWhens_eq] at ih ⊢
    rw [List.map_cons, List.map_cons, List.flatten_cons, List.flatten_cons, Token.after_append,
      Token.after_append, ih, Token.after_arm, first.1.placeholders, first.2.placeholders]
    simp

theorem readsArms (ne : whens ≠ [])
    (h : List.Forall₂ (fun ws w => Expr.IsRead escapes plus d o ws.1 w.1 ∧
      Expr.IsRead escapes plus d o ws.2 w.2) wss whens) (n : Nat) :
    ∃ ls, d.lexemes n (wss.map fun ws => Token.arm ws.1 ws.2).flatten = .keyword .when :: ls ∧
      ReadsArms escapes ls ((Expr.readingWhens .attach d o n whens).map
        fun w => (w.1.shown plus, w.2.shown plus)) := by
  induction h generalizing n with
  | nil => exact absurd rfl ne
  | @cons ws w wss whens first rest ih =>
    obtain ⟨c, r⟩ := w
    obtain ⟨j, -, condition⟩ := first.1.fits n
    obtain ⟨k, -, result⟩ := first.2.fits (after n ws.1)
    have arm : d.lexemes n (Token.arm ws.1 ws.2) =
        .keyword .when :: (d.lexemes n ws.1 ++
          .keyword .then :: d.lexemes (after n ws.1) ws.2) := by
      rw [Token.arm, Dialect.lexemes_append, Dialect.lexemes_append, Dialect.lexemes_append,
        Dialect.lexemes_clause (l := .keyword .when) (by decide),
        Dialect.lexemes_clause (l := .keyword .then) (by decide)]
      simp
    rw [readingWhens, ← first.1.placeholders, ← first.2.placeholders, List.map_cons, List.map_cons,
      List.flatten_cons, Dialect.lexemes_append, arm]
    cases rest with
    | nil =>
      refine ⟨_, List.append_nil _, ?_⟩
      exact ReadsArms.single condition result
    | cons second rest =>
      obtain ⟨ls, eq, arms⟩ := ih (by simp) (after (after n ws.1) ws.2)
      refine ⟨_, ?_, ReadsArms.cons condition result arms⟩
      rw [Token.after_arm, eq]
      simp

theorem after_option (h : Option.Rel (Expr.IsRead escapes plus d o) ts? e?) (n : Nat) :
    after n ts?.toList.flatten = after n (e?.toList.flatMap (Expr.tokens d o)) := by
  cases h with
  | none => rfl
  | some h => simpa using h.placeholders n

theorem readsOptional (h : Option.Rel (Expr.IsRead escapes plus d o) ts? e?) (n : Nat) :
    ReadsOptional escapes (d.lexemes n ts?.toList.flatten)
      ((e?.map (Expr.readingBy .attach d o n)).map (Reading.shown plus)) := by
  cases h with
  | none => exact .none
  | some h =>
    obtain ⟨k, -, reads⟩ := h.fits n
    simpa using ReadsOptional.some reads

theorem case {os es : Option (List Token)} {operand otherwise : Option Expr} (type : SqlType)
    (ho : Option.Rel (Expr.IsRead escapes plus d o) os operand) (ne : whens ≠ [])
    (hw : List.Forall₂ (fun ws w => Expr.IsRead escapes plus d o ws.1 w.1 ∧
      Expr.IsRead escapes plus d o ws.2 w.2) wss whens)
    (he : Option.Rel (Expr.IsRead escapes plus d o) es otherwise) :
    (Expr.case operand whens otherwise type).IsRead escapes plus d o
      (.word "CASE" :: (os.toList.flatMap fun ts => .space :: ts) ++
        (wss.map fun ws => Token.arm ws.1 ws.2).flatten ++ Token.optionalClause ["ELSE"] es ++
        [Token.space, .word "END"]) := by
  have spaced : ∀ n, d.lexemes n (os.toList.flatMap fun ts => .space :: ts) =
        d.lexemes n os.toList.flatten ∧
      after n (os.toList.flatMap fun ts => .space :: ts) = after n os.toList.flatten := by
    cases os <;> simp
  have others (n : Nat) : d.lexemes n (Token.optionalClause ["ELSE"] es) =
      (if ((otherwise.map (Expr.readingBy .attach d o n)).map (Reading.shown plus)).isSome then
        [Lexeme.keyword .else] else []) ++ d.lexemes n es.toList.flatten := by
    cases he with
    | none => rfl
    | some he =>
      rw [Token.optionalClause, Dialect.lexemes_append,
        Dialect.lexemes_clause (l := .keyword .else) (by decide)]
      simp
  have last (n : Nat) : d.lexemes n [.space, .word "END"] = [.keyword .end] := by
    rw [Dialect.lexemes_space, Dialect.lexemes_reserved (l := .keyword .end) (by decide),
      Dialect.lexemes_nil]
  refine .primary (fun _ => rfl) (fun n => ?_) fun n => ⟨9, by omega, ?_⟩
  · have first : ∀ n, after n (operand.toList.flatMap fun e => .space :: e.tokens d o) =
        after n (operand.toList.flatMap (Expr.tokens d o)) := by
      cases operand <;> simp
    have middle : (whens.map (armTokens d o)).flatten = (tokensWhens d o whens).flatten := by
      rw [tokensWhens_eq]
      rfl
    have final (n : Nat) : after n (Token.optionalClause ["ELSE"] es) =
        after n (Token.optionalClause ["ELSE"] (otherwise.map (Expr.tokens d o))) := by
      cases he with
      | none => rfl
      | some he => simp [Token.optionalClause, he.placeholders]
    rw [case_tokens, middle]
    simp only [List.cons_append, Token.after_word, Token.after_append, (spaced _).2, first,
      after_option ho, after_arms hw, final]
  · obtain ⟨ls, eq, arms⟩ := readsArms ne hw (after n os.toList.flatten)
    have whole := Reads.case (readsOptional ho n) arms (readsOptional he
      (after (after n os.toList.flatten) (wss.map fun ws => Token.arm ws.1 ws.2).flatten))
    rw [case_reading, Reading.case_shown, ← after_option ho, ← after_arms hw, List.cons_append,
      List.cons_append, List.cons_append,
      Dialect.lexemes_reserved (l := .keyword .case) (by decide), Dialect.lexemes_append,
      Dialect.lexemes_append, Dialect.lexemes_append, (spaced n).1, (spaced n).2, eq,
      Token.after_append, (spaced n).2, others, last]
    simpa only [List.append_assoc, List.cons_append] using whole

end Expr.IsRead

end SelectCompiler
