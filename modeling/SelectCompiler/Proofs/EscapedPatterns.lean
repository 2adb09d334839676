import SelectCompiler.Proofs.Parenthesization
import SelectCompiler.Proofs.Reader.Sheltered

/-!
`LIKE` with `ESCAPE`. Main statement: an expression and its parts are read from their texts as what
they are if and only if every operand of `ESCAPE` binds tighter than the tests do; any other one is
torn apart, because it has no parentheses.
-/

namespace SelectCompiler

open Token (after enclosedIf)
open ReadState (begin goOn runWith stepWith_operand)

variable {d : Dialect} {o : Options}

/-- The dialects that join strings by `||`, or by a call where there is no such operator. -/
theorem Dialect.builtIn_and_spells
    (hd : d ∈ [Dialect.postgres, Dialect.sqlite, Dialect.oracle, Dialect.mysql]) :
    d.BuiltIn ∧ ∀ op, d.Spells op := by
  simp only [List.mem_cons, List.not_mem_nil, or_false] at hd
  rcases hd with rfl | rfl | rfl | rfl
  · exact ⟨.postgres, fun _ _ => rfl⟩
  · exact ⟨.sqlite, fun _ _ => rfl⟩
  · exact ⟨.oracle, fun _ _ => rfl⟩
  · exact ⟨.mysql, fun _ _ => rfl⟩

/-! ### Behind `ESCAPE` -/

/-- Tests do not chain. -/
theorem goOn_test {l : Lexeme} (reach : l.reach = some 4) (r : Reading) (ps : List Pending)
    (outer : List (Bracket × List Pending)) : goOn r 4 ps outer l = none := by
  cases l with
  | keyword k => cases k <;> first | rfl | cases reach
  | operator op =>
    have compares : op.isComparison = true := by
      simpa [BinaryOp.isComparison] using Option.some.inj reach
    rw [goOn, BinaryOp.leftDemand, if_pos compares]
    rfl
  | _ => cases reach

theorem Fits.run_ends_test {ls rest : List Lexeme} {r : Reading} (h : Fits true 5 ls r)
    (follows : Follows 4 rest) (test : Reading) :
    runWith true ⟨.operand, [.like test false], []⟩ (ls ++ rest) =
      runWith true ⟨.ended (.like test r false) 4, [], []⟩ rest := by
  obtain ⟨k, le, reads⟩ := h
  rw [reads [.like test false] [] rest le (follows.mono (by omega))]
  exact run_build (p := .like test false) follows r k

/-- Behind `ESCAPE` the lexemes stop the reader, or they end the test and take it for an operand. -/
def Overruns (test : Reading) (ls : List Lexeme) (k : Nat) : Prop :=
  (∀ rest, runWith true ⟨.operand, [.like test false], []⟩ (ls ++ rest) = none) ∨
    ∃ l op r, ∀ rest, Follows k rest →
      runWith true ⟨.operand, [.like test false], []⟩ (ls ++ rest) =
        runWith true ⟨.ended (.binary l op r) k, [], []⟩ rest

namespace Overruns

variable {test : Reading} {ls rs : List Lexeme} {k : Nat}

theorem not (ls : List Lexeme) : Overruns test (.keyword .not :: ls) k := by
  have stops : begin [.like test false] [] (.keyword .not) = none := rfl
  refine .inl fun rest => ?_
  rw [List.cons_append, runWith, stepWith_operand, stops, Option.bind_none]

theorem ofTest {r : Reading} (h : Fits true 5 ls r) {l : Lexeme} (reach : l.reach = some 4)
    (rs : List Lexeme) : Overruns test (ls ++ l :: rs) k := by
  refine .inl fun rest => ?_
  rw [List.append_assoc, List.cons_append,
    h.run_ends_test (follows_cons reach (Nat.le_refl 4) _),
    run_ended reach (by omega) (by omega) (Nat.zero_le _), goOn_test reach, Option.bind_none]

variable {op : BinaryOp} {g : Reading → Reading}

theorem logical {r : Reading} (h : Fits true 5 ls r) (loose : op.leftDemand ≤ 4)
    (right : Attaches true false rs op g) (top : ∀ x, ∃ l r, g x = .binary l op r) :
    Overruns test (ls ++ Lexeme.operator op :: rs) op.rank := by
  obtain ⟨x, y, eq⟩ := top (.like test r false)
  refine .inr ⟨x, op, y, fun rest follows => ?_⟩
  have rank := op.rank_le_leftDemand
  have last := right (.like test r false) [] [] rest (Nat.zero_le _)
  rw [Reading.shown_false, Reading.shown_false, op.shown_false, eq] at last
  rw [List.append_assoc, List.cons_append, h.run_ends_test (follows_cons rfl (by omega) _),
    run_operator loose (Nat.zero_le _)]
  exact last follows

theorem chain {j : Nat} (h : Overruns test ls j) (le : op.leftDemand ≤ j)
    (right : Attaches true false rs op g) (top : ∀ x, ∃ l r, g x = .binary l op r) :
    Overruns test (ls ++ Lexeme.operator op :: rs) op.rank := by
  rcases h with stops | ⟨x, inner, y, runs⟩
  · refine .inl fun rest => ?_
    rw [List.append_assoc, stops]
  · obtain ⟨l, z, eq⟩ := top (.binary x inner y)
    refine .inr ⟨l, op, z, fun rest follows => ?_⟩
    have rank := op.rank_le_leftDemand
    have last := right (.binary x inner y) [] [] rest (Nat.zero_le _)
    rw [Reading.shown_false, Reading.shown_false, op.shown_false, eq] at last
    rw [List.append_assoc, List.cons_append, runs _ (follows_cons rfl (by omega) _),
      run_operator le (Nat.zero_le _)]
    exact last follows

theorem atEnd (h : Overruns test ls k) :
    runWith true ⟨.operand, [.like test false], []⟩ ls = none ∨
      ∃ l op r, runWith true ⟨.operand, [.like test false], []⟩ ls = some (.binary l op r) := by
  rcases h with stops | ⟨l, op, r, runs⟩
  · have whole := stops []
    rw [List.append_nil] at whole
    exact .inl whole
  · have whole := runs [] nofun
    rw [List.append_nil] at whole
    exact .inr ⟨l, op, r, whole⟩

end Overruns

namespace Expr

variable {e : Expr}

/-- An operand of `ESCAPE` that needs parentheses is not read as such without them. -/
theorem overruns (hd : d.BuiltIn) (spells : ∀ op, d.Spells op)
    (h : ∀ k : Expr, k.Within e → k.IsSheltered true false d)
    (legible : (Node.expr e).IsLegible d o)
    (loose : e.plain.enclosedInTest = true) (test : Reading) (n : Nat) :
    Overruns test (d.lexemes n (e.tokens d o)) e.plain.rank := by
  induction e using part_induction with
  | step e ih =>
  obtain ⟨own, parts⟩ := forall_within_iff.1 h
  have part (m : Expr) (hm : .expr m ∈ (Node.expr e).parts) :
      m.plain.IsRead true false d o (m.tokens d o) :=
    isRead_plain hd (parts m hm) (legible.part hd hm)
  -- the word of a test stands behind an operand that binds tighter
  have ofTest {m : Expr} (hm : .expr m ∈ (Node.expr e).parts) (bare : m.isNotExists = false)
      {ts : List Token} (word : ∀ n, ∃ l ls, d.lexemes n ts = l :: ls ∧ l.reach = some 4)
      (k : Nat) :
      Overruns test (d.lexemes n (enclosedIf m.enclosedInTest (m.tokens d o) ++ ts)) k := by
    obtain ⟨l, ls, eq, reach⟩ := word (after n (enclosedIf m.enclosedInTest (m.tokens d o)))
    rw [Dialect.lexemes_append, eq, ← plain_enclosedInTest bare]
    exact .ofTest ((part m hm).tested n) reach ls
  have testWords {w : String} {l : Lexeme} (reserved : (w, l) ∈ Lexeme.reserved)
      (reach : l.reach = some 4) (negated : Bool) (ts : List Token) (n : Nat) :
      ∃ l ls, d.lexemes n (testWords negated w ++ ts) = l :: ls ∧ l.reach = some 4 := by
    rw [Dialect.lexemes_append, Dialect.lexemes_testWords reserved]
    cases negated with
    | false => exact ⟨l, _, rfl, reach⟩
    | true => exact ⟨.keyword .not, _, rfl, rfl⟩
  cases e with
  | unary u operand type =>
    cases u with
    | not =>
      rw [tokens, Dialect.lexemes_reserved (l := .keyword .not) (by decide)]
      exact .not _
    | isNull =>
      exact ofTest (by simp [Node.parts]) own.not
        (fun n => ⟨.keyword .is, _, Dialect.lexemes_isNull n, rfl⟩) _
    | isNotNull =>
      exact ofTest (by simp [Node.parts]) own.not
        (fun n => ⟨.keyword .is, _, Dialect.lexemes_isNotNull n, rfl⟩) _
    | _ => cases loose
  | binary left op right type =>
    have low : op.rank ≤ 4 := of_decide_eq_true loose
    have infix' : d.calls op = false := by
      cases op <;> first | rfl | exact absurd low (by decide)
    have bare : 3 < op.rank → left.isNotExists = false ∧ right.isNotExists = false := by
      simpa [exposesNot, infix'] using own.not
    have left' := part left (by simp [Node.parts])
    have right' := (part right (by simp [Node.parts])).attaches_right infix'
      (after n (left.tokens d o))
    have top := fun x => Reading.attach_eq_binary op x
      (right.plain.readingBy .attach d o (after n (left.tokens d o)))
    rw [tokens, Dialect.lexemes_infixTokens _ _ _ _ _ (spells op).shows infix', op.shown_false,
      ← (plain_enclosed fun high => (bare high).1).1,
      ← (plain_enclosed fun high => (bare high).2).2]
    by_cases compares : op.rank = 4
    · have tight : op.leftDemand = 5 := by
        simp [BinaryOp.leftDemand, BinaryOp.isComparison, compares]
      have reach : (Lexeme.operator op).reach = some 4 := congrArg some compares
      refine .ofTest (left'.fits_enclosedIf (by omega) _ (fun open' => ?_) n) reach _
      exact tight ▸ Nat.le_trans (leftDemand_le open') (left.plain.rank_le_shownRank false)
    · have chains : op.leftDemand = op.rank := BinaryOp.leftDemand_eq_iff.2 compares
      cases enclosed : left.plain.enclosedOnLeft op with
      | true =>
        exact .logical (left'.fits_enclosedIf (by omega) true (by simp) n) (by omega) right' top
      | false =>
        have most := leftDemand_le enclosed
        cases loose' : left.plain.enclosedInTest with
        | true =>
          have first := ih left (by simp [Node.parts]) (parts left (by simp [Node.parts]))
            (legible.part hd (by simp [Node.parts])) loose'
          exact first.chain most right' top
        | false =>
          have first := left'.tested n
          rw [loose'] at first
          exact .logical first (by omega) right' top
  | «exists» q negated =>
    cases negated with
    | false => cases loose
    | true =>
      rw [tokens, if_pos rfl, List.cons_append,
        Dialect.lexemes_reserved (l := .keyword .not) (by decide)]
      exact .not _
  | inList item values negated =>
    rw [tokens, List.append_assoc]
    exact ofTest (by simp [Node.parts]) own.not
      (testWords (l := .keyword .in) (by decide) rfl negated _) _
  | inSelect item q negated =>
    rw [tokens, List.append_assoc]
    exact ofTest (by simp [Node.parts]) own.not
      (testWords (l := .keyword .in) (by decide) rfl negated _) _
  | like item pattern escape negated =>
    have bare := own.not
    simp only [exposesNot, Bool.or_eq_false_iff] at bare
    rw [like_tokens, List.append_assoc, List.append_assoc]
    exact ofTest (by simp [Node.parts]) bare.1.1
      (testWords (l := .keyword .like) (by decide) rfl negated _) _
  | function call => cases call; cases loose
  | _ => cases loose

/-- The test in front of `ESCAPE` ends within the operand, or the reader stops there. -/
theorem run_exposed_escape (hd : d.BuiltIn) (spells : ∀ op, d.Spells op)
    (legible : (Node.expr e).IsLegible d o)
    (parts : ∀ m, .expr m ∈ (Node.expr e).parts → ∀ k : Expr, k.Within m →
      k.IsSheltered true false d)
    (bare : e.exposesNot d = false) (exposed : e.exposesEscape = true) (n : Nat) :
    runWith true ⟨.operand, [], []⟩ (d.lexemes n (e.tokens d o)) = none ∨
      ∃ l op r, runWith true ⟨.operand, [], []⟩ (d.lexemes n (e.tokens d o)) =
        some (.binary l op r) := by
  have part (m : Expr) (hm : .expr m ∈ (Node.expr e).parts) :
      m.plain.IsRead true false d o (m.tokens d o) :=
    isRead_plain hd (parts m hm) (legible.part hd hm)
  cases e with
  | like item pattern escape negated =>
    cases escape with
    | none => cases exposed
    | some escape =>
      have hi : .expr item ∈ (Node.expr (.like item pattern (some escape) negated)).parts := by
        simp [Node.parts]
      have hp : .expr pattern ∈ (Node.expr (.like item pattern (some escape) negated)).parts := by
        simp [Node.parts]
      have he : .expr escape ∈ (Node.expr (.like item pattern (some escape) negated)).parts := by
        simp [Node.parts]
      simp only [exposesNot, Bool.or_eq_false_iff] at bare
      obtain ⟨i, le, first⟩ := (part item hi).tested n
      obtain ⟨j, le', second⟩ := (part pattern hp).tested (after n (item.tokens d o))
      have loose : escape.plain.enclosedInTest = true :=
        (plain_enclosedInTest bare.2).trans exposed
      have last := overruns hd spells (parts escape he) (legible.part hd he) loose
        (.escaping (.like ((item.plain.readingBy .attach d o n).shown false)
          ((pattern.plain.readingBy .attach d o (after n (item.tokens d o))).shown false) negated))
        (after (after n (item.tokens d o)) (pattern.tokens d o))
      have whole := first.run_escape le (isEscaping_plain (legible.part hd hi) n) second le' negated
        (show ReadState.demand [] ≤ 4 from Nat.zero_le 4) [] (d.lexemes (after (after n (item.tokens d o))
          (pattern.tokens d o)) (escape.tokens d o))
      rw [plain_enclosedInTest bare.1.1, plain_enclosedInTest bare.1.2] at whole
      rw [like_tokens, Option.map_some, Token.optionalClause, Dialect.lexemes_append,
        Dialect.lexemes_append, Dialect.lexemes_append, Dialect.lexemes_append,
        Dialect.lexemes_testWords (l := .keyword .like) (by decide),
        Dialect.lexemes_clause (l := .keyword .escape) (by decide)]
      simp only [Token.after_append, Token.after_enclosedIf, Token.after_testWords,
        Token.after_clause, List.append_assoc, List.cons_append, List.nil_append]
      rw [whole]
      exact last.atEnd
  | _ => cases exposed

/-- No sum to the right of a plus sign, no product to the right of a multiplication. -/
def IsSeparate : Expr → Prop
  | .binary _ op right _ => IsSeparateOperand op right
  | _ => True

/-- All parts of an expression are read as what they are if and only if every operand of `ESCAPE` in
it binds tighter than the tests do. -/
theorem read_parts_iff_exposesEscape
    (hd : d ∈ [Dialect.postgres, Dialect.sqlite, Dialect.oracle, Dialect.mysql]) {e : Expr}
    (separate : ∀ k : Expr, k.Within e → k.IsSeparate)
    (bare : ∀ k : Expr, k.Within e → k.exposesNot d = false)
    (ordinary : ∀ l ∈ e.leaves .ofFields, l.IsOrdinary) (faultless : e.faults d o = []) (n : Nat) :
    (∀ k : Expr, k.Within e → d.readWithEscapes (String.join (d.texts n (k.tokens d o))) =
      some (k.plain.readingBy .chained d o n)) ↔
      ∀ k : Expr, k.Within e → k.exposesEscape = false := by
  obtain ⟨builtIn, spells⟩ := Dialect.builtIn_and_spells hd
  have legible : (Node.expr e).IsLegible d o := ⟨faultless, ordinary⟩
  have read {k : Expr} (hk : k.Within e) :
      d.readWithEscapes (String.join (d.texts n (k.tokens d o))) =
        runWith true ⟨.operand, [], []⟩ (d.lexemes n (k.tokens d o)) := by
    rw [Dialect.readWithEscapes, (legible.within builtIn hk).lex builtIn, Option.bind_some]
  constructor
  · clear faultless ordinary
    induction e using part_induction with
    | step e ih =>
    intro reads
    obtain ⟨own, parts⟩ := forall_within_iff.1 reads
    obtain ⟨bare', bareParts⟩ := forall_within_iff.1 bare
    have tight (m : Expr) (hm : .expr m ∈ (Node.expr e).parts) :
        ∀ k : Expr, k.Within m → k.exposesEscape = false :=
      ih m hm (fun k hk => separate k (.part hm hk)) (bareParts m hm)
        (legible.part builtIn hm) (fun hk => read (.part hm hk)) (parts m hm)
    refine forall_within_iff.2 ⟨?_, tight⟩
    by_contra exposed
    rw [Bool.not_eq_false] at exposed
    rw [read (.self e)] at own
    have sheltered (m : Expr) (hm : .expr m ∈ (Node.expr e).parts) (k : Expr) (hk : k.Within m) :
        k.IsSheltered true false d :=
      ⟨fun _ op _ _ _ => spells op, fun _ => rfl, bareParts m hm k hk, tight m hm k hk⟩
    rcases run_exposed_escape builtIn spells legible sheltered bare' exposed n with
      stops | ⟨l, op, r, torn⟩
    · rw [stops] at own
      cases own
    · rw [torn, Option.some.injEq] at own
      cases e with
      | like item pattern escape negated => cases escape <;> cases own
      | _ => cases exposed
  · intro tight k hk
    have inner (k' : Expr) (hk' : k'.Within k) : k'.IsSheltered true false d :=
      ⟨fun _ op _ _ _ => spells op, fun _ => rfl, bare k' (hk'.trans hk), tight k' (hk'.trans hk)⟩
    have legible' := legible.within builtIn hk
    have readable : k.plain.IsReadable IsSeparateOperand :=
      isReadable_plain builtIn legible' fun left op right type h arithmetic =>
        (plain_isBinary op right).trans (separate _ (h.trans hk) arithmetic)
    rw [read hk, (isRead_plain builtIn inner legible').runWith n, Reading.shown_false,
      reading_chained readable]

end Expr

/-- An escape that is put together, and one that needs parentheses. -/
theorem read_parts_escapedPattern :
    let column (name : String) : Expr := .column ⟨name, none, .text, false⟩
    let pattern (escape : Expr) : Expr := .like (column "a") (column "b") (some escape) true
    let kept : Expr := pattern (.binary (column "c") .concat (column "e") .text)
    let lost : Expr := pattern (.binary (column "c") .or (column "e") .boolean)
    let text (e : Expr) : String := String.join (Dialect.postgres.texts 1 (e.tokens .postgres {}))
    text kept = "\"a\" NOT LIKE \"b\" ESCAPE \"c\" || \"e\"" ∧
      Dialect.postgres.readWithEscapes (text kept) = some (.like
        (.escaping (.like (.atom [.name "a"]) (.atom [.name "b"]) true))
        (.binary (.atom [.name "c"]) .concat (.atom [.name "e"])) false) ∧
      text lost = "\"a\" NOT LIKE \"b\" ESCAPE \"c\" OR \"e\"" ∧
      ¬∀ k : Expr, k.Within lost → Dialect.postgres.readWithEscapes (text k) =
        some (k.plain.readingBy .chained .postgres {} 1) := by
  intro column pattern kept lost text
  have inColumn (name : String) : ∀ k : Expr, k.Within (column name) →
      k.IsSeparate ∧ k.exposesNot .postgres = false ∧ k.exposesEscape = false :=
    Expr.forall_within_iff.2
      ⟨⟨trivial, rfl, rfl⟩, fun m hm => by simp [column, Node.parts] at hm⟩
  have inEscape (op : BinaryOp) (type : SqlType) (separate : IsSeparateOperand op (column "e")) :
      ∀ k : Expr, k.Within (.binary (column "c") op (column "e") type) →
        k.IsSeparate ∧ k.exposesNot .postgres = false ∧ k.exposesEscape = false :=
    Expr.forall_within_iff.2 ⟨⟨separate, by simp [Expr.exposesNot, column, Expr.isNotExists], rfl⟩,
      fun m hm => by
        obtain rfl | rfl : m = column "c" ∨ m = column "e" := by simpa [Node.parts] using hm
        · exact inColumn "c"
        · exact inColumn "e"⟩
  have inPattern {escape : Expr} (bare : escape.isNotExists = false)
      (h : ∀ k : Expr, k.Within escape →
        k.IsSeparate ∧ k.exposesNot .postgres = false ∧ k.exposesEscape = false) :
      ∀ k : Expr, k.Within (pattern escape) →
        k.IsSeparate ∧ k.exposesNot .postgres = false ∧
          (k = pattern escape ∨ k.exposesEscape = false) :=
    Expr.forall_within_iff.2 ⟨⟨trivial, bare, .inl rfl⟩, fun m hm k hk => by
      have inner : k.IsSeparate ∧ k.exposesNot .postgres = false ∧ k.exposesEscape = false := by
        obtain rfl | rfl | rfl : m = column "a" ∨ m = column "b" ∨ m = escape := by
          simpa [pattern, Node.parts] using hm
        · exact inColumn "a" k hk
        · exact inColumn "b" k hk
        · exact h k hk
      exact ⟨inner.1, inner.2.1, .inr inner.2.2⟩⟩
  have inKept := inPattern rfl (inEscape .concat .text fun _ => rfl)
  have inLost := inPattern rfl (inEscape .or .boolean fun _ => rfl)
  refine ⟨by decide, ?_, by decide, fun reads => ?_⟩
  · rw [(Expr.read_parts_iff_exposesEscape (by decide) (fun k hk => (inKept k hk).1)
      (fun k hk => (inKept k hk).2.1) (by decide) rfl 1).2
      (fun k hk => (inKept k hk).2.2.elim (fun eq => eq ▸ rfl) id) kept (.self kept)]
    rfl
  · have none := (Expr.read_parts_iff_exposesEscape (by decide) (fun k hk => (inLost k hk).1)
      (fun k hk => (inLost k hk).2.1) (by decide) rfl 1).1 reads lost (.self lost)
    cases none

end SelectCompiler
