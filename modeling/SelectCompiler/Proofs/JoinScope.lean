import SelectCompiler.Proofs.Joins.Rows
import SelectCompiler.Proofs.Joins.Text

/-!
The sources that join conditions see. Main statement: the FROM clause of a block of joined tables says
what the tree says exactly if no condition refers to a source in front of the last comma; otherwise it
says nothing.
-/

namespace SelectCompiler

open Lexeme (fromReading?)

variable {d : Dialect} {o : Options} {ρ : Type}

/-- The rows of the FROM clause in the text of a block. A join binds tighter than a comma. -/
def Dialect.fromRows? (d : Dialect) (m : Conditions ρ) (tables : Tables ρ) (text : String) :
    Option (List (JoinedRow ρ)) :=
  ((d.lex text).bind fromReading?).bind (entryRows? m tables)

namespace Select

/-- The rows of a block before its other clauses: the joins extend the product of all FROM entries.
The conditions are those that are written, the first placeholder having the given position. -/
def fromRows (d : Dialect) (o : Options) (m : Conditions ρ) (tables : Tables ρ) (position : Nat)
    (q : Select) : List (JoinedRow ρ) :=
  joined m tables (q.joinReadings d o position)
    (product (q.sources.map fun s => s.reading.rows tables))

/-- Every condition refers to these names, to sources that are joined before it or to its own. -/
def ConditionsSee (d : Dialect) (o : Options) (m : Conditions ρ) (position : Nat) (q : Select)
    (names : List String) : Prop :=
  m.InScope names (q.joinReadings d o position)

instance (m : Conditions ρ) (n : Nat) (q : Select) (names : List String) :
    Decidable (q.ConditionsSee d o m n names) :=
  inferInstanceAs (Decidable (m.InScope _ _))

theorem joinReadings_names (d : Dialect) (o : Options) (n : Nat) (js : List Join) :
    (SelectCompiler.joinReadings d o n js).map (·.table.visibleName) =
      js.map (·.source.visibleName) := by
  induction js generalizing n with
  | nil => rfl
  | cons j js ih =>
    rw [SelectCompiler.joinReadings, List.map_cons, ih, List.map_cons, Source.reading_visibleName]

/-- The names of the last FROM entry, if there is one. -/
def lastNames (q : Select) : List String := (q.sources.getLast?.map Source.visibleName).toList

/-- Where the conditions see the last FROM entry only, tree and text have the same rows; otherwise the
text has none. -/
theorem fromRows?_text (hd : d.BuiltIn) {q : Select} (joins : q.JoinsTables)
    (legible : q.IsLegible d o) (distinct : (q.allSources.map Source.visibleName).Nodup)
    (m : Conditions ρ) (tables : Tables ρ) (n : Nat) :
    d.fromRows? m tables (d.textOf n (q.tokens d o)) =
      if q.ConditionsSee d o m n q.lastNames then some (q.fromRows d o m tables n) else none := by
  have phrase : d.Phrase (q.tokens d o) := (phrase_step hd o).ofSelect q
  have last : lastName (q.sources.map Source.reading) = q.lastNames := by
    rw [lastName, lastNames, List.getLast?_map, Option.map_map]
    congr 2
    exact funext Source.reading_visibleName
  have hanging : q.sources.map Source.reading = [] → q.joinReadings d o n = [] := by
    intro none
    have noJoins : q.joins = [] := by
      by_contra some
      exact joins.hanging some (List.map_eq_nil_iff.1 none)
    rw [joinReadings, noJoins]
    rfl
  have names : (q.sources.map Source.reading).map TableReading.visibleName ++
      (q.joinReadings d o n).map (·.table.visibleName) =
        q.allSources.map Source.visibleName := by
    have reading : TableReading.visibleName ∘ Source.reading = Source.visibleName :=
      funext Source.reading_visibleName
    rw [joinReadings, joinReadings_names, List.map_map, reading, allSources, List.map_append,
      List.map_map]
    rfl
  rw [Dialect.fromRows?, Dialect.textOf,
    Dialect.lex_tame hd phrase fun t ht => (legible.tokens t ht).1,
    Option.bind_some, fromReading o hd joins legible, Option.bind_some,
    entryRows?_entriesOf hanging (names ▸ distinct), last, List.map_map]
  rfl

end Select

/-- Every block of joined tables with distinct names stands in the text of a compiled query. Its FROM
clause has the rows of the tree, for whatever the tables hold, exactly if no condition refers to a
source in front of the last comma. -/
theorem Select.compile_fromRows_iff (hd : d.BuiltIn) {s : Select} {out : Command}
    (legible : ∀ l ∈ s.leaves .ofFields, ∀ text ∈ l.rawText?, IsTame text ∧ IsClauseless text)
    (h : s.compile d o = .ok out) {q : Select} (contained : (Node.block s).Contains (.block q))
    (tables : ∀ a ∈ q.allSources, a.IsTable)
    (kinds : ∀ j ∈ q.joins, j.kind = .inner ∨ j.kind = .left ∨ j.kind = .cross)
    (distinct : (q.allSources.map Source.visibleName).Nodup)
    (inseparable : ∀ j ∈ q.joins, ∀ e ∈ j.predicate, ∀ l ∈ e.leaves .ofFields,
      ∀ text ∈ l.rawText?, IsInseparable text) :
    ∃ before after, s.tokens d o = before ++ q.tokens d o ++ after ∧
      out.sql = d.textOf 1 before ++ d.textOf (Token.after 1 before) (q.tokens d o) ++
        d.textOf (Token.after 1 (before ++ q.tokens d o)) after ∧
      ∀ (m : Conditions ρ) (content : Tables ρ),
        (∃ rows, d.fromRows? m content (d.textOf (Token.after 1 before) (q.tokens d o)) = some rows ∧
          rows.Perm (q.fromRows d o m content (Token.after 1 before))) ↔
        q.ConditionsSee d o m (Token.after 1 before) q.lastNames := by
  have none : s.faults d o = [] := (compile_ok h).1
  obtain ⟨before, after, split, text⟩ := text_contained hd h contained
  rw [show (Node.block q).tokens d o = q.tokens d o from rfl] at split text
  have inside : ∀ t ∈ q.tokens d o, t ∈ s.tokens d o := fun t ht =>
    split ▸ List.mem_append_left _ (List.mem_append_right _ ht)
  have sound : q.IsSound := (exists_compile_iff hd o s).1 ⟨out, h⟩ _ contained
  have joins : q.JoinsTables := ⟨tables, kinds, sound.sources⟩
  have legible : q.IsLegible d o := by
    refine ⟨fun t ht => ?_, fun j hj e he text mem => ?_⟩
    · cases t with
      | verbatim text => exact raw_tokens hd none legible (inside _ ht)
      | _ => exact ⟨trivial, trivial⟩
    · have within : (Node.block q).Contains (.expr e) :=
        .part (m := .join j) (by simp [Node.parts, hj])
          (.part (by simp [Node.parts, Option.mem_def.1 he]) (.self _))
      have faultless : (Node.expr e).faults d o = [] := (Node.faults_eq_nil_iff hd _).2 fun k hk =>
        (Node.faults_eq_nil_iff hd (.block s)).1 none k ((contained.trans within).trans hk)
      exact Expr.raw_tokens hd faultless (inseparable j hj e he) mem
  refine ⟨before, after, split, text, fun m content => ?_⟩
  rw [fromRows?_text hd joins legible distinct]
  constructor
  · rintro ⟨rows, rows?, -⟩
    by_contra unseen
    rw [if_neg unseen] at rows?
    cases rows?
  · exact fun seen => ⟨_, if_pos seen, .refl _⟩

/-- The names in front of a point. -/
def Lexeme.owners : List Lexeme → List String
  | name n :: dot :: ls => n :: owners ls
  | _ :: ls => owners ls
  | [] => []

/-- Rows are numbers here, and conditions ask for the same number everywhere. -/
def sameNumbers : Conditions Nat where
  uses := Lexeme.owners
  holds _ row := row.all fun p => p.2 == row.head?.bind Prod.snd

/-- What is joined to the second source refers to the first. -/
def acrossComma : Select where
  projections := [⟨.fragment "*", ""⟩]
  sources := [.table "a" none none, .table "b" (some "s") (some "bb")]
  joins := [⟨.left, .table "c" none none,
    some (.binary (.column ⟨"a_id", some "c", .int, false⟩) .equal
      (.column ⟨"id", some "a", .int, false⟩) .boolean)⟩]

theorem compile_fromRows_iff_acrossComma :
    (∃ out, acrossComma.compile .postgres {} = .ok out ∧
      out.sql = "SELECT * FROM \"a\", \"s\".\"b\" AS \"bb\" LEFT JOIN \"c\" ON" ++
        " \"c\".\"a_id\" = \"a\".\"id\"") ∧
    acrossComma.ConditionsSee .postgres {} sameNumbers 1 ["a", "bb"] ∧
    acrossComma.fromRows .postgres {} sameNumbers (fun _ _ => [1, 2]) 1 =
      [[("a", some 1), ("bb", some 1), ("c", some 1)], [("a", some 1), ("bb", some 2), ("c", some 1)],
        [("a", some 2), ("bb", some 1), ("c", some 2)],
        [("a", some 2), ("bb", some 2), ("c", some 2)]] ∧
    ¬∃ rows, Dialect.postgres.fromRows? sameNumbers (fun _ _ => [1, 2])
      (Dialect.postgres.textOf 1 (acrossComma.tokens .postgres {})) = some rows ∧
        rows.Perm (acrossComma.fromRows .postgres {} sameNumbers (fun _ _ => [1, 2]) 1) := by
  obtain ⟨before, after, split, -, rows⟩ := Select.compile_fromRows_iff (ρ := Nat) (o := {})
    .postgres (s := acrossComma) (by decide +kernel) rfl (.self _) (by decide) (by decide) (by decide)
    (by decide +kernel)
  have first : before = [] := by
    have lengths := congrArg List.length split
    simp only [List.length_append] at lengths
    exact List.length_eq_zero_iff.1 (by omega)
  subst first
  have unseen : ¬acrossComma.ConditionsSee .postgres {} sameNumbers 1 acrossComma.lastNames := by
    decide +kernel
  exact ⟨⟨_, rfl, by decide +kernel⟩, by decide +kernel, by decide +kernel,
    mt (rows sameNumbers fun _ _ => [1, 2]).1 unseen⟩

end SelectCompiler
