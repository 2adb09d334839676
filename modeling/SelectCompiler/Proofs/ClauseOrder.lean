import SelectCompiler.Proofs.Quoting
import SelectCompiler.Proofs.Text.OuterWords
import SelectCompiler.Proofs.Tokens.TreeClauses
import SelectCompiler.Proofs.Tree.NodeTokens

/-!
The order of clauses. Main statement: what a block is written as has the words of its clauses
outside of quotes and parentheses, each where it belongs, and no others.
-/

namespace SelectCompiler

variable {d : Dialect} {o : Options}

theorem isQuiet_rawWords : IsQuiet rawWords := fun _ _ hw => by
  simpa using (List.mem_filter.1 hw).2

theorem clauseless_tokens (hd : d.BuiltIn) {s : Select} (none : s.faults d o = [])
    (clauseless : ∀ l ∈ s.leaves .ofFields, ∀ text ∈ l.rawText?, IsClauseless text) :
    ∀ t ∈ s.tokens d o, t.IsClauseless := by
  intro t ht
  cases t with
  | verbatim text => exact Select.raw_tokens hd none clauseless ht
  | _ => trivial

/-- Within a query, a block shows the clauses of its own fields. -/
theorem Select.clauseWords?_textOf (hd : d.BuiltIn) {s : Select} (none : s.faults d o = [])
    (tame : ∀ l ∈ s.leaves .ofFields, l.IsTame)
    (clauseless : ∀ l ∈ s.leaves .ofFields, ∀ text ∈ l.rawText?, IsClauseless text) {q : Select}
    (contained : (Node.block s).Contains (.block q)) (n : Nat) :
    d.clauseWords? (d.textOf n (q.tokens d o)) = some (q.clauseWords d) := by
  have inside : ∀ t ∈ q.tokens d o, t ∈ s.tokens d o :=
    (Node.infix_contained hd (n := .block s) none contained).subset
  have tame (t : Token) (ht : t ∈ q.tokens d o) : t.IsTame ∧ t.IsClauseless :=
    ⟨tame_tokens hd none tame t (inside t ht), clauseless_tokens hd none clauseless t (inside t ht)⟩
  rw [Dialect.textOf, Dialect.clauseWords?_phrase hd ((phrase_step hd o).ofSelect q) tame,
    (q.writes_tokens hd o isQuiet_rawWords).clauseWords_eq]

/-- Every block of a compiled query stands in its text. There the words of its clauses, read outside
of quotes and parentheses, are those that its fields call for, in one order. -/
theorem Select.compile_clauses (hd : d.BuiltIn) {s : Select} {out : Command}
    (tame : ∀ l ∈ s.leaves .ofFields, l.IsTame)
    (clauseless : ∀ l ∈ s.leaves .ofFields, ∀ text ∈ l.rawText?, IsClauseless text)
    (h : s.compile d o = .ok out) {q : Select} (contained : (Node.block s).Contains (.block q)) :
    ∃ before after, s.tokens d o = before ++ q.tokens d o ++ after ∧
      out.sql = d.textOf 1 before ++ d.textOf (Token.after 1 before) (q.tokens d o) ++
        d.textOf (Token.after 1 (before ++ q.tokens d o)) after ∧
      d.clauseWords? (d.textOf (Token.after 1 before) (q.tokens d o)) = some (q.clauseWords d) := by
  have none : s.faults d o = [] := (compile_ok h).1
  obtain ⟨before, after, split, text⟩ := text_contained hd h contained
  exact ⟨before, after, split, text, clauseWords?_textOf hd none tame clauseless contained _⟩

/-- Customers with many orders. -/
def frequentCustomers : Select where
  projections := [⟨.column ⟨"customer", none, .int, false⟩, "ORDER BY"⟩]
  sources := [.table "orders" none none]
  groupBy := [.column ⟨"customer", none, .int, false⟩]
  having := some (.binary
    (.function ⟨"COUNT", none, true, false, true, [true],
      [.column ⟨"customer", none, .int, false⟩], .int⟩)
    .greaterThan (.literal ⟨.int 3, .int⟩) .boolean)
  offset := some (.literal ⟨.int 10, .int⟩)

/-- Their names, next to texts that look like clauses. -/
def frequentNames : Select where
  projections := [⟨.column ⟨"name", some "FROM", .text, false⟩, ""⟩,
    ⟨.literal ⟨.text "' FROM (", .text⟩, ""⟩]
  sources := [.table "customers" none (some "FROM")]
  predicate := some (.inSelect (.column ⟨"id", some "FROM", .int, false⟩) frequentCustomers false)
  limit := some (.literal ⟨.int 5, .int⟩)

theorem compile_clauses_frequentNames :
    (∃ out, frequentNames.compile (.sqlServer "dbo") {} = .ok out ∧
      out.sql = "SELECT TOP(5) [FROM].[name], N''' FROM (' FROM [customers] AS [FROM]" ++
        " WHERE [FROM].[id] IN (SELECT [customer] AS [ORDER BY] FROM [orders]" ++
        " GROUP BY [customer] HAVING COUNT([customer]) > 3 ORDER BY (SELECT 1) OFFSET 10 ROWS)") ∧
    frequentNames.clauseWords (.sqlServer "dbo") = ["SELECT", "TOP", "FROM", "WHERE"] ∧
    ∃ n, (Dialect.sqlServer "dbo").clauseWords?
        ((Dialect.sqlServer "dbo").textOf n (frequentCustomers.tokens (.sqlServer "dbo") {})) =
      some ["SELECT", "FROM", "GROUP", "BY", "HAVING", "ORDER", "BY", "OFFSET"] := by
  have inner : (Node.block frequentNames).Contains (.block frequentCustomers) :=
    .part (m := .expr (.inSelect (.column ⟨"id", some "FROM", .int, false⟩) frequentCustomers false))
      (by simp [Node.parts, frequentNames]) (.part (by simp [Node.parts]) (.self _))
  obtain ⟨before, after, -, -, words⟩ := Select.compile_clauses (.sqlServer "dbo") (o := {})
    (s := frequentNames) (by decide) (by decide) rfl inner
  exact ⟨⟨_, rfl, by decide +kernel⟩, by decide, _, words⟩

end SelectCompiler
