import SelectCompiler.Proofs.ClauseOrder
import SelectCompiler.Proofs.Joins.Reading
import SelectCompiler.Proofs.SourceNames

/-!
The FROM clause in the text of a block. Main statement: it is read as the tables of the block with all
joins in the entry of the last of them.
-/

namespace SelectCompiler

open Lexeme (Passes isWordOf laterWords picked fromMark? fromReading?)
open Dialect (scanned_append)
open Token (clause listed optionalClause listClause)

variable {d : Dialect} {o : Options}

/-! ### Tables and joins of a block -/

namespace Source

def IsTable : Source → Prop
  | table _ _ _ => True
  | _ => False

instance : DecidablePred IsTable
  | table _ _ _ => .isTrue trivial
  | derived _ _ | function _ | set _ => .isFalse id

/-- A source as a table is read. -/
def reading : Source → TableReading
  | table name schema aliasName => ⟨givenName schema, name, givenName aliasName⟩
  | s => ⟨none, s.visibleName, none⟩

theorem reading_visibleName (s : Source) : s.reading.visibleName = s.visibleName := by
  cases s <;> rfl

end Source

/-- Joins as they are read, the first placeholder in them having the given position. -/
def joinReadings (d : Dialect) (o : Options) : (position : Nat) → List Join → List JoinReading
  | _, [] => []
  | n, j :: js =>
    ⟨j.kind, j.source.reading, j.predicate.map fun e => lexemesOf (d.scanned n (e.tokens d o))⟩ ::
      joinReadings d o (Token.after n (j.tokens d o)) js

/-- A raw text that does not divide a FROM clause. -/
def IsInseparable (text : String) : Prop :=
  picked fromMark? (lexemesOf (text.toList.map .plain)) = []

instance (text : String) : Decidable (IsInseparable text) :=
  inferInstanceAs (Decidable (picked _ _ = []))

theorem Dialect.picks_fromMark (hd : d.BuiltIn) : d.Picks fromMark? where
  mark l h := by cases l <;> first | rfl | cases h
  name n := rfl
  text s := rfl
  dot := rfl
  unlettered c cs h := if_neg (Lexeme.toUpper_notMem (by decide) h cs)
  constants := by decide
  margins := hd.of_databases (by decide) fun _ h => h

/-- A condition does not divide the clause that it stands in. -/
theorem undivided_condition (hd : d.BuiltIn) {e : Expr} (tame : ∀ t ∈ e.tokens d o, t.IsTame)
    (raw : ∀ text, .verbatim text ∈ e.tokens d o → IsInseparable text) (n : Nat) :
    IsUndivided (lexemesOf (d.scanned n (e.tokens d o))) where
  balanced := Dialect.lexemesOf_scanned_balanced hd ((phrase_step hd o).ofExpr e) tame n
  unmarked := by
    have words : ∀ w ∈ operandWords,
        picked fromMark? (lexemesOf (w.toList.map .plain)) = [] := by decide +kernel
    have found := (Dialect.picks_fromMark hd).phrase hd ((phrase_step hd o).ofExpr e) tame n
      isSeparated_nil
    rw [List.append_nil, lexemesOf_nil, Lexeme.picked_nil, List.append_nil] at found
    rw [found, List.flatMap_eq_nil_iff]
    intro item mem
    cases item with
    | group content => rfl
    | token t =>
      have allowed := ((operand_step hd o).ofExpr e).forall_mem t mem
      cases t with
      | word w => exact words w allowed
      | verbatim text => exact raw text (Token.mem_of_mem_items mem)
      | symbol s => exact if_neg allowed
      | _ => rfl

/-! ### Lexemes of the clause -/

section Clause

variable {rest : List Scanned}

theorem tokens_table (name : String) (schema aliasName : Option String) :
    (Source.table name schema aliasName).tokens d o =
      Token.qualified (givenName schema) (.name name) ++
        ((givenName aliasName).elim [] fun a => d.aliasLead ++ [Token.name a]) := by
  simp only [Source.tokens]
  cases givenName aliasName <;> rfl

theorem lexemesOf_table (hd : d.BuiltIn) {s : Source} (h : s.IsTable) (n : Nat)
    (separated : IsSeparated rest) :
    lexemesOf (d.scanned n (s.tokens d o) ++ rest) =
      s.reading.lexemes d.aliasWord ++ lexemesOf rest := by
  cases s with
  | table name schema aliasName =>
    have quoted : ∀ t ∈ (Source.table name schema aliasName).tokens d o, t.IsOrdinary := by
      rw [tokens_table]
      refine List.forall_mem_append.2 ⟨?_, ?_⟩
      · cases givenName schema <;> simp [Token.qualified, Token.IsOrdinary]
      · cases givenName aliasName with
        | none => simp
        | some a =>
          unfold Dialect.aliasLead
          split <;> simp [clause, Token.words, Token.IsOrdinary]
    have lead (a : String) : d.lexemes n (d.aliasLead ++ [Token.name a]) =
        (if d.aliasWord then [Lexeme.keyword .as] else []) ++ [Lexeme.name a] := by
      unfold Dialect.aliasLead
      split <;> simp [clause, Token.words, Dialect.lexemes_reserved (w := "AS") (l := .keyword .as)
        (by decide)]
    have owner : d.lexemes n (Token.qualified (givenName schema) (.name name)) =
        ((givenName schema).elim [] fun s => [Lexeme.name s, .dot]) ++ [Lexeme.name name] := by
      cases givenName schema <;> simp [Token.qualified]
    have after : Token.after n (Token.qualified (givenName schema) (.name name)) = n := by
      cases givenName schema <;> rfl
    rw [Dialect.lexemesOf_phrase hd ((phrase_step hd o).ofSource _) quoted n separated, tokens_table,
      Dialect.lexemes_append, owner, after, Source.reading, TableReading.lexemes]
    cases givenName aliasName with
    | none => simp
    | some a => simp [lead a]
  | _ => exact h.elim

theorem after_table {s : Source} (h : s.IsTable) (n : Nat) : Token.after n (s.tokens d o) = n := by
  cases s with
  | table name schema aliasName =>
    have owner : Token.after n (Token.qualified (givenName schema) (.name name)) = n := by
      cases givenName schema <;> rfl
    have lead (a : String) : Token.after n (d.aliasLead ++ [Token.name a]) = n := by
      unfold Dialect.aliasLead
      split <;> simp <;> rfl
    rw [tokens_table, Token.after_append, owner]
    cases givenName aliasName with
    | none => rfl
    | some a => exact lead a
  | _ => exact h.elim

theorem isSeparated_space (n : Nat) (ts : List Token) : IsSeparated (d.scanned n (.space :: ts)) := by
  rw [Dialect.scanned_space]
  exact isSeparated_plain (by simp) _

theorem isSeparated_joins (js : List Join) (n : Nat) (separated : IsSeparated rest) :
    IsSeparated (d.scanned n (js.map (Join.tokens d o)).flatten ++ rest) := by
  cases js with
  | nil => exact separated
  | cons j js =>
    have begins : ∃ ts, ((j :: js).map (Join.tokens d o)).flatten = .space :: ts := ⟨_, by
      rw [List.map_cons, List.flatten_cons, Join.tokens, clause]
      simp only [List.cons_append]
      rfl⟩
    obtain ⟨ts, eq⟩ := begins
    rw [eq, Dialect.scanned_space]
    exact isSeparated_plain (by simp) _

theorem lexemesOf_join (hd : d.BuiltIn) {j : Join} (table : j.source.IsTable)
    (kind : j.kind = .inner ∨ j.kind = .left ∨ j.kind = .cross) (n : Nat) :
    lexemesOf (d.scanned n (j.tokens d o)) =
      JoinReading.lexemes d.aliasWord ⟨j.kind, j.source.reading,
        j.predicate.map fun e => lexemesOf (d.scanned n (e.tokens d o))⟩ := by
  have condition (ts : Option (List Token)) :
      IsSeparated (d.scanned n (optionalClause ["ON"] ts)) := by
    cases ts with
    | none => exact isSeparated_nil
    | some ts => exact isSeparated_space n _
  have on : lexemesOf ("ON".toList.map .plain) = [.word "ON"] := by decide
  have last : lexemesOf (d.scanned n (optionalClause ["ON"] (j.predicate.map (Expr.tokens d o)))) =
      (j.predicate.map fun e => lexemesOf (d.scanned n (e.tokens d o))).elim []
        (.word "ON" :: ·) := by
    cases j.predicate with
    | none => rfl
    | some e =>
      show lexemesOf (d.scanned n (.space :: .word "ON" :: .space :: e.tokens d o)) = _
      rw [Dialect.scanned_space, lexemesOf_blank, Dialect.lexemesOf_keyword on]
      rfl
  have behind : lexemesOf (d.scanned n (j.source.tokens d o ++
      optionalClause ["ON"] (j.predicate.map (Expr.tokens d o)))) =
        j.source.reading.lexemes d.aliasWord ++
          (j.predicate.map fun e => lexemesOf (d.scanned n (e.tokens d o))).elim []
            (.word "ON" :: ·) := by
    rw [scanned_append, after_table table, lexemesOf_table hd table n (condition _), last]
  have words : ∀ w ∈ ["INNER", "LEFT", "CROSS", "JOIN"],
      lexemesOf (w.toList.map .plain) = [.word w] := by decide
  have lead {w : String} (hw : w ∈ ["INNER", "LEFT", "CROSS"]) (ts : List Token) :
      lexemesOf (d.scanned n (clause [w, "JOIN"] ++ ts)) =
        .word w :: .word "JOIN" :: lexemesOf (d.scanned n ts) := by
    have tokens : clause [w, "JOIN"] ++ ts =
        .space :: .word w :: .space :: .word "JOIN" :: .space :: ts := by
      simp [clause, Token.words]
    rw [tokens, Dialect.scanned_space, lexemesOf_blank,
      Dialect.lexemesOf_keyword (words w (List.mem_append_left ["JOIN"] hw)),
      Dialect.lexemesOf_keyword (words "JOIN" (by decide))]
  rw [Join.tokens, List.append_assoc, JoinReading.lexemes]
  rcases kind with eq | eq | eq <;>
    (rw [eq, joinWords, lead (by decide), behind]; simp)

/-- The joins of tables are read as they are written. -/
theorem lexemesOf_joins (hd : d.BuiltIn) {js : List Join}
    (h : ∀ j ∈ js, j.source.IsTable ∧ (j.kind = .inner ∨ j.kind = .left ∨ j.kind = .cross)) (n : Nat)
    (separated : IsSeparated rest) :
    lexemesOf (d.scanned n (js.map (Join.tokens d o)).flatten ++ rest) =
      (joinReadings d o n js).flatMap (JoinReading.lexemes d.aliasWord) ++ lexemesOf rest := by
  induction js generalizing n with
  | nil => rfl
  | cons j js ih =>
    obtain ⟨⟨table, kind⟩, others⟩ := List.forall_mem_cons.1 h
    have tail := isSeparated_joins (d := d) (o := o) js (Token.after n (j.tokens d o)) separated
    rw [List.map_cons, List.flatten_cons, scanned_append, List.append_assoc, lexemesOf_append tail,
      lexemesOf_join hd table kind, ih others, joinReadings, List.flatMap_cons, List.append_assoc]

/-- The clause is read as it is written. -/
theorem lexemesOf_clause (hd : d.BuiltIn) {ss : List Source} (ne : ss ≠ [])
    (tables : ∀ s ∈ ss, s.IsTable) {js : List Join}
    (h : ∀ j ∈ js, j.source.IsTable ∧ (j.kind = .inner ∨ j.kind = .left ∨ j.kind = .cross)) (n : Nat)
    (separated : IsSeparated rest) :
    lexemesOf (d.scanned n (listed (ss.map (Source.tokens d o)) ++
        (js.map (Join.tokens d o)).flatten) ++ rest) =
      clauseLexemes d.aliasWord (ss.map Source.reading) (joinReadings d o n js) ++
        lexemesOf rest := by
  induction ss with
  | nil => exact absurd rfl ne
  | cons s ss ih =>
    obtain ⟨table, others⟩ := List.forall_mem_cons.1 tables
    cases ss with
    | nil =>
      have joins := isSeparated_joins (d := d) (o := o) js n separated
      rw [List.map_singleton, show listed [s.tokens d o] = s.tokens d o by simp [listed],
        scanned_append, List.append_assoc, after_table table, lexemesOf_table hd table n joins,
        lexemesOf_joins hd h n separated, List.map_singleton, clauseLexemes, List.append_assoc]
    | cons t ss =>
      have next (xs : List Scanned) : IsSeparated (.plain ',' :: xs) := isSeparated_plain (by simp) xs
      have tokens : listed ((s :: t :: ss).map (Source.tokens d o)) =
          s.tokens d o ++
            Token.symbol "," :: .space :: listed ((t :: ss).map (Source.tokens d o)) := by
        simp [listed]
      rw [tokens, List.append_assoc, scanned_append, after_table table, List.cons_append,
        List.cons_append, Dialect.scanned_mark (c := ',') (by decide), Dialect.scanned_space,
        List.append_assoc, List.cons_append, List.cons_append, lexemesOf_table hd table n (next _),
        lexemesOf_comma, lexemesOf_blank, ih (List.cons_ne_nil t ss) others]
      simp [clauseLexemes]

end Clause

/-! ### The clause in its block -/

/-- What shows no FROM is passed over when the clause is looked for. -/
theorem Writes.passes_from (hd : d.BuiltIn) {ts : List Token} {shown : List String}
    (writes : Writes rawWords ts shown) (h : d.Phrase ts)
    (tame : ∀ t ∈ ts, t.IsTame ∧ t.IsClauseless) (none : "FROM" ∉ shown) (n : Nat) :
    Passes (isWordOf ["FROM"]) (lexemesOf (d.scanned n ts)) where
  balanced := Dialect.lexemesOf_scanned_balanced hd h (fun t ht => (tame t ht).1) n
  begun l hl := by
    have words := (Dialect.picks_clauseWord hd).phrase hd h (fun t ht => (tame t ht).1) n
      isSeparated_nil
    rw [List.append_nil, lexemesOf_nil, Lexeme.picked_nil, List.append_nil,
      Dialect.picked_clauseWord hd h fun t ht => (tame t ht).2] at words
    cases l with
    | word w =>
      refine Option.isSome_eq_false_iff.2 (Option.isNone_iff_eq_none.2 (if_neg fun mem => none ?_))
      have «from» : Lexeme.clauseWord? (.word w) = some "FROM" := by
        rw [Lexeme.clauseWord?, List.mem_singleton.1 mem]
        rfl
      have found : "FROM" ∈ picked Lexeme.clauseWord? (lexemesOf (d.scanned n ts)) :=
        List.mem_filterMap.2 ⟨_, hl, «from»⟩
      rw [words] at found
      exact writes.clauseWords_eq ▸ mem_clauseWordsFrom (by decide) found ""
    | _ => rfl

/-- Nothing, or a clause behind FROM. -/
def StartsLater (ts : List Token) : Prop :=
  ts = [] ∨ ∃ w ∈ laterWords, ∃ us, ts = .space :: .word w :: .space :: us

namespace StartsLater

theorem append {a b : List Token} (ha : StartsLater a) (hb : StartsLater b) :
    StartsLater (a ++ b) := by
  rcases ha with rfl | ⟨w, hw, us, rfl⟩
  · exact hb
  · exact .inr ⟨w, hw, us ++ b, rfl⟩

theorem ofClause {w : String} (hw : w ∈ laterWords) (ws : List String) (ts : List Token) :
    StartsLater (clause (w :: ws) ++ ts) := by
  cases ws with
  | nil => exact .inr ⟨w, hw, ts, by simp [clause, Token.words]⟩
  | cons v ws =>
    exact .inr ⟨w, hw, Token.words (v :: ws) ++ Token.space :: ts, by
      simp [clause, Token.words, List.intercalate_cons_cons]⟩

theorem optional {w : String} (hw : w ∈ laterWords) (ws : List String) (ts : Option (List Token)) :
    StartsLater (optionalClause (w :: ws) ts) := by
  cases ts with
  | none => exact .inl rfl
  | some ts => exact ofClause hw ws ts

theorem list {w : String} (hw : w ∈ laterWords) (ws : List String) (tss : List (List Token)) :
    StartsLater (listClause (w :: ws) tss) := by
  cases tss with
  | nil => exact .inl rfl
  | cons ts tss => exact ofClause hw ws _

theorem isSeparated {ts : List Token} (h : StartsLater ts) (n : Nat) :
    IsSeparated (d.scanned n ts) := by
  rcases h with rfl | ⟨w, -, us, rfl⟩
  · exact isSeparated_nil
  · exact isSeparated_space n _

theorem lexemes {ts : List Token} (h : StartsLater ts) (n : Nat) :
    lexemesOf (d.scanned n ts) = [] ∨
      ∃ w ∈ laterWords, ∃ ls, lexemesOf (d.scanned n ts) = .word w :: ls := by
  have single : ∀ w ∈ laterWords, lexemesOf (w.toList.map .plain) = [.word w] := by decide
  rcases h with rfl | ⟨w, hw, us, rfl⟩
  · exact .inl rfl
  · refine .inr ⟨w, hw, lexemesOf (d.scanned n us), ?_⟩
    rw [Dialect.scanned_space, lexemesOf_blank, Dialect.lexemesOf_keyword (single w hw)]

end StartsLater

namespace Select

variable (d) (o) (q : Select)

/-- What is written in front of the FROM clause. -/
def leadTokens : List Token :=
  [.word "SELECT", .space] ++ Dialect.distinctTokens q.distinct ++
    d.frontTokens (q.limit.map (Expr.tokens d o)) (q.offset.map (Expr.tokens d o)) ++
    Dialect.projectionTokens (q.clauses d o).projections

/-- What is written behind the FROM clause. -/
def laterTokens : List Token :=
  optionalClause ["WHERE"] (q.clauses d o).predicate ++
    listClause ["GROUP", "BY"] (q.clauses d o).groupBy ++
    optionalClause ["HAVING"] (q.clauses d o).having ++
    d.orderingTokens (q.clauses d o).orderings (q.clauses d o).offset.isSome ++
    d.backTokens (q.clauses d o).limit (q.clauses d o).offset

theorem tokens_split :
    q.tokens d o = q.leadTokens d o ++ (d.sourceTokens (q.sources.map (Source.tokens d o)) ++
      ((q.joins.map (Join.tokens d o)).flatten ++ q.laterTokens d o)) := by
  rw [tokens_eq, Dialect.assemble_eq, leadTokens, laterTokens]
  simp only [clauses, List.append_assoc]

variable {d}

theorem startsLater : StartsLater (q.laterTokens d o) := by
  have orderings (tss : List (List Token)) (hasOffset : Bool) :
      StartsLater (d.orderingTokens tss hasOffset) := by
    unfold Dialect.orderingTokens
    split
    · exact .optional (by decide) _ _
    · exact .list (by decide) _ _
  have fetched (which : String) (limit : Option (List Token)) :
      StartsLater (PagingForm.tokens.fetched which limit) := by
    cases limit with
    | none => exact .inl rfl
    | some l =>
      rw [PagingForm.tokens.fetched, List.append_assoc]
      exact .ofClause (by decide) _ _
  have paging (form : PagingForm) (limit offset : Option (List Token)) :
      StartsLater (form.tokens limit offset) := by
    cases form with
    | offsetLimit => exact (StartsLater.optional (by decide) _ _).append (.optional (by decide) _ _)
    | limitOffset rows =>
      rw [PagingForm.tokens, List.append_assoc]
      exact .ofClause (by decide) _ _
    | fetch =>
      cases offset with
      | none => exact fetched _ limit
      | some k =>
        rw [PagingForm.tokens, List.append_assoc]
        exact .ofClause (by decide) _ _
  have back : StartsLater (d.backTokens (q.clauses d o).limit (q.clauses d o).offset) := by
    unfold Dialect.backTokens
    split
    · exact paging _ _ _
    · exact .inl rfl
  exact ((((StartsLater.optional (by decide) _ _).append (.list (by decide) _ _)).append
    (.optional (by decide) _ _)).append (orderings _ _)).append back

theorem lead_phrase (hd : d.BuiltIn) : d.Phrase (q.leadTokens d o) := by
  have expr (e : Expr) : d.Phrase (e.tokens d o) := (phrase_step hd o).ofExpr e
  have select : d.Lead IsUnmarked [.word "SELECT", .space] :=
    .spaced (a := [.word "SELECT"]) (.keyword (by decide))
  have limit : ∀ ts ∈ q.limit.map (Expr.tokens d o), d.Phrase ts := by
    rintro ts hts
    obtain ⟨e, -, rfl⟩ := Option.map_eq_some_iff.1 hts
    exact expr e
  have projections : ∀ ts ∈ (q.clauses d o).projections, d.Phrase ts :=
    List.forall_mem_map.2 fun p _ => projectionAlias_tail p.expr p.aliasName _ (expr p.expr)
  exact ((select.append (Dialect.distinctTokens_lead q.distinct)).append
    (Dialect.frontTokens_lead hd limit _)) _ (Dialect.projectionTokens_phrase projections)

theorem writes_lead (hd : d.BuiltIn) {raw : String → List String} (quiet : IsQuiet raw) :
    ∃ shown, "FROM" ∉ shown ∧ Writes raw (q.leadTokens d o) shown := by
  have expr := writes_expr hd o quiet
  have select : Writes raw [.word "SELECT", .space] ["SELECT"] :=
    (Writes.keyword (by decide) (by decide)).append .space
  have front := Writes.frontTokens hd (writes_option fun e (_ : e ∈ q.limit) => expr e)
    (q.offset.map (Expr.tokens d o))
  have projections : Writes raw (Dialect.projectionTokens (q.clauses d o).projections) [] :=
    .projectionTokens <| List.forall_mem_map.2 fun p _ =>
      (expr p.expr).silent (.ofOuter quiet (.projectionAlias p.expr p.aliasName))
  refine ⟨_, ?_, ((select.append (.distinctTokens q.distinct)).append front).append projections⟩
  unfold Dialect.leadingWords
  split <;> split <;> simp

/-- A block of joined tables. -/
structure JoinsTables (q : Select) : Prop where
  tables : ∀ s ∈ q.allSources, s.IsTable
  kinds : ∀ j ∈ q.joins, j.kind = .inner ∨ j.kind = .left ∨ j.kind = .cross
  hanging : q.joins ≠ [] → q.sources ≠ []

/-- Raw texts that neither a scanner nor a reader of FROM clauses takes for something else. -/
structure IsLegible (d : Dialect) (o : Options) (q : Select) : Prop where
  tokens : ∀ t ∈ q.tokens d o, t.IsTame ∧ t.IsClauseless
  conditions : ∀ j ∈ q.joins, ∀ e ∈ j.predicate,
    ∀ text, .verbatim text ∈ e.tokens d o → IsInseparable text

/-- The joins of a block as they are read, its first placeholder having the given position. -/
def joinReadings (d : Dialect) (o : Options) (position : Nat) (q : Select) : List JoinReading :=
  SelectCompiler.joinReadings d o (Token.after position (q.leadTokens d o)) q.joins

theorem isWritten_joins (hd : d.BuiltIn) {js : List Join}
    (kinds : ∀ j ∈ js, j.kind = .inner ∨ j.kind = .left ∨ j.kind = .cross)
    (tame : ∀ j ∈ js, ∀ e ∈ j.predicate, ∀ t ∈ e.tokens d o, t.IsTame)
    (raw : ∀ j ∈ js, ∀ e ∈ j.predicate, ∀ text, .verbatim text ∈ e.tokens d o → IsInseparable text)
    (n : Nat) : ∀ j ∈ SelectCompiler.joinReadings d o n js, j.IsWritten := by
  induction js generalizing n with
  | nil => exact fun j hj => nomatch hj
  | cons j js ih =>
    rw [List.forall_mem_cons] at kinds tame raw
    refine List.forall_mem_cons.2 ⟨⟨kinds.1, ?_⟩, ih kinds.2 tame.2 raw.2 _⟩
    rintro c hc
    obtain ⟨e, he, rfl⟩ := Option.map_eq_some_iff.1 hc
    exact undivided_condition hd (tame.1 e he) (raw.1 e he) n

theorem fromReading (hd : d.BuiltIn) {q : Select} (joins : q.JoinsTables)
    (legible : q.IsLegible d o) (n : Nat) :
    fromReading? (lexemesOf (d.scanned n (q.tokens d o))) =
      some (entriesOf (q.sources.map Source.reading) (q.joinReadings d o n)) := by
  have phrase : d.Phrase (q.tokens d o) := (phrase_step hd o).ofSelect q
  have split := q.tokens_split d o
  have leadTame : ∀ t ∈ q.leadTokens d o, t.IsTame ∧ t.IsClauseless := fun t ht =>
    legible.tokens t (split ▸ List.mem_append_left _ ht)
  obtain ⟨shown, noFrom, writes⟩ := q.writes_lead o hd isQuiet_rawWords
  have lead := writes.passes_from hd (q.lead_phrase o hd) leadTame noFrom n
  have later := q.startsLater (d := d) o
  have «from» : lexemesOf ("FROM".toList.map .plain) = [.word "FROM"] := by decide
  -- a clause begins with a blank and its keyword
  have clause (ts : List Token) : lexemesOf (d.scanned n (q.leadTokens d o ++
      .space :: .word "FROM" :: .space :: ts)) =
        lexemesOf (d.scanned n (q.leadTokens d o)) ++ Lexeme.word "FROM" ::
          lexemesOf (d.scanned (Token.after n (q.leadTokens d o)) ts) := by
    rw [scanned_append, lexemesOf_append (isSeparated_space _ _), Dialect.scanned_space,
      lexemesOf_blank, Dialect.lexemesOf_keyword «from»]
  cases eq : q.sources with
  | nil =>
    have none : q.joins = [] := by
      by_contra some
      exact joins.hanging some eq
    by_cases dual : d.name = "oracle"
    · have tokens : q.tokens d o = q.leadTokens d o ++ Token.space :: .word "FROM" :: .space ::
          .word "DUAL" :: q.laterTokens d o := by
        rw [split, eq, none]
        cases hd with
        | oracle => rfl
        | _ => simp [Dialect.postgres, Dialect.mysql, Dialect.sqlite, Dialect.sqlServer] at dual
      have word : lexemesOf ("DUAL".toList.map .plain) = [.word "DUAL"] := by decide
      have behind (m : Nat) : lexemesOf (d.scanned m (.word "DUAL" :: q.laterTokens d o)) =
          [Lexeme.word "DUAL"] ++ lexemesOf (d.scanned m (q.laterTokens d o)) := by
        rw [Dialect.scanned_cons, ← word]
        exact lexemesOf_append (later.isSeparated m) _
      rw [tokens, clause, behind, fromReading_eq lead (.singleton rfl (by decide)) (later.lexemes _)]
      rfl
    · have noFrom : "FROM" ∉ q.clauseWords d := by
        have front : "FROM" ∉ d.leadingWords q.limit.isSome q.offset.isSome := by
          unfold Dialect.leadingWords
          split <;> simp
        have back : "FROM" ∉ d.trailingWords q.limit.isSome q.offset.isSome := by
          unfold Dialect.trailingWords
          split <;> (repeat' split) <;> simp
        have inner : "FROM" ∉ q.innerWords d := by
          rw [innerWords, eq, none]
          simp [dual]
        simp [clauseWords, front, back, inner]
      exact fromReading_passes ((q.writes_tokens hd o isQuiet_rawWords).passes_from hd phrase
        legible.tokens noFrom n)
  | cons s ss =>
    have tame : ∀ j ∈ q.joins, ∀ e ∈ j.predicate, ∀ t ∈ e.tokens d o, t.IsTame := by
      intro j hj e he t ht
      have inJoin : t ∈ j.tokens d o := by
        rw [Join.tokens, Option.mem_def.1 he]
        exact List.mem_append_right _ (List.mem_append_right _ ht)
      have inJoins : t ∈ (q.joins.map (Join.tokens d o)).flatten :=
        List.mem_flatten_of_mem (List.mem_map_of_mem hj) inJoin
      refine (legible.tokens t ?_).1
      rw [split]
      exact List.mem_append_right _ (List.mem_append_right _ (List.mem_append_left _ inJoins))
    have written := isWritten_joins (o := o) hd joins.kinds tame legible.conditions
      (Token.after n (q.leadTokens d o))
    have sources : ∀ t ∈ s :: ss, t.IsTable := fun t ht =>
      joins.tables t (List.mem_append_left _ (eq ▸ ht))
    have hanging (j : Join) (hj : j ∈ q.joins) : j.source.IsTable ∧
        (j.kind = .inner ∨ j.kind = .left ∨ j.kind = .cross) :=
      ⟨joins.tables _ (List.mem_append_right _ (List.mem_map_of_mem hj)), joins.kinds j hj⟩
    have tokens : q.tokens d o = q.leadTokens d o ++ Token.space :: .word "FROM" :: .space ::
        ((listed ((s :: ss).map (Source.tokens d o)) ++ (q.joins.map (Join.tokens d o)).flatten) ++
          q.laterTokens d o) := by
      rw [split, eq]
      simp [Dialect.sourceTokens, listClause, Token.clause, Token.words]
    have ne : (s :: ss).map Source.reading ≠ [] := by simp
    rw [tokens, clause, scanned_append, lexemesOf_clause hd (by simp) sources hanging _
      (later.isSeparated _), fromReading_eq lead (clauseLexemes_passes written) (later.lexemes _),
      entriesReading_clause written ne]
    rfl

end Select

end SelectCompiler
