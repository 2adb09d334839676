import SelectCompiler.Proofs.Tree.NodeTokens

/-!
The names by which the sources of a block are seen in the text. Main statement: every source is
written with its visible name last, and these names are pairwise distinct in a block exactly if none
of the tables without an alias to check shares its name with another source.
-/

namespace SelectCompiler

variable {d : Dialect} {o : Options}

namespace Source

/-- The alias that is written, otherwise the name of the table. -/
def visibleName : Source → String
  | table name _ aliasName => (givenName aliasName).getD name
  | derived _ aliasName => aliasName
  | function call => call.aliasName
  | set operation => operation.aliasName

/-- A table that has no alias for the scope of its block, though its name is written. -/
def IsOverlooked : Source → Prop
  | table name _ aliasName => aliasName = some "" ∨ aliasName = none ∧ name = ""
  | _ => False

theorem tokens_visibleName (s : Source) :
    ∃ lead, s.tokens d o = lead ++ [Token.name s.visibleName] := by
  cases s with
  | table name schema aliasName =>
    rw [tokens, visibleName]
    cases givenName aliasName with
    | some written => exact ⟨_, (List.append_assoc _ _ _).symm⟩
    | none =>
      cases givenName schema with
      | none => exact ⟨[], rfl⟩
      | some schema => exact ⟨[.name schema, .symbol "."], rfl⟩
  | derived q aliasName => exact ⟨_, rfl⟩
  | function call => exact ⟨_, call.tokens_eq d o⟩
  | set operation => exact ⟨_, operation.tokens_eq d o⟩

theorem givenName_some (name : String) :
    givenName (some name) = if name = "" then none else some name := by
  by_cases h : name = "" <;> simp [givenName, h]

/-- The scope knows a source by its visible name. -/
theorem visibleName_of_alias? {s : Source} {aliasName : String} (h : s.alias? = some aliasName) :
    s.visibleName = aliasName := by
  have given {name : String} (h : givenName (some name) = some aliasName) : name = aliasName := by
    rw [givenName_some] at h
    split at h <;> simp_all
  cases s with
  | table name schema written =>
    cases written with
    | none => exact given h
    | some written =>
      obtain rfl := given h
      rw [visibleName, show givenName (some written) = some written from h, Option.getD_some]
  | derived q written => exact given h
  | function call => exact given h
  | set operation => exact given h

/-- Of the sources of a compiled block, the scope does not know those tables. -/
theorem alias?_eq_none_iff {s : Source} (sound : (Node.source s).IsSound d o) :
    s.alias? = none ↔ s.IsOverlooked := by
  have aliased {name : String} (h : name ≠ "") : givenName (some name) ≠ none := by
    simp [givenName_some, h]
  cases s with
  | table name schema aliasName => cases aliasName <;> simp [alias?, IsOverlooked, givenName_some]
  | derived q aliasName => exact iff_of_false (aliased sound) id
  | function call => exact iff_of_false (aliased sound.aliased) id
  | set operation => exact iff_of_false (aliased sound.aliased) id

end Source

theorem Node.contains_source {q : Select} {a : Source} (h : a ∈ q.allSources) :
    (block q).Contains (source a) := by
  rcases List.mem_append.1 h with h | h
  · exact .part (by simp [parts, h]) (.self _)
  · obtain ⟨j, hj, rfl⟩ := List.mem_map.1 h
    exact .part (m := join j) (by simp [parts, hj]) (.part (by simp [parts]) (.self _))

/-- In a block whose nodes are sound, only overlooked tables can share a visible name. -/
theorem Select.IsSound.visibleNames_nodup_iff {q : Select} (sound : q.IsSound)
    (sources : ∀ a ∈ q.allSources, (Node.source a).IsSound d o) :
    (q.allSources.map Source.visibleName).Nodup ↔
      q.allSources.Pairwise fun a b =>
        a.IsOverlooked ∨ b.IsOverlooked → a.visibleName ≠ b.visibleName := by
  rw [List.Nodup, List.pairwise_map]
  refine ⟨fun distinct => distinct.imp ?_, fun overlooked => ?_⟩
  · exact fun h _ => h
  have known : q.allSources.Pairwise fun a b =>
      ∀ x, a.alias? = some x → ∀ y, b.alias? = some y → x ≠ y :=
    List.pairwise_filterMap.1 sound.aliases
  refine (overlooked.and known).imp_of_mem fun {a b} ha hb h => ?_
  cases hx : a.alias? with
  | none => exact h.1 (.inl ((a.alias?_eq_none_iff (sources a ha)).1 hx))
  | some x =>
    cases hy : b.alias? with
    | none => exact h.1 (.inr ((b.alias?_eq_none_iff (sources b hb)).1 hy))
    | some y =>
      rw [Source.visibleName_of_alias? hx, Source.visibleName_of_alias? hy]
      exact h.2 x hx y hy

/-- Every source of a compiled query ends in its quoted visible name. In a block these names are
pairwise distinct exactly if no overlooked table has the name of another source. -/
theorem Select.compile_visibleNames (hd : d.BuiltIn) {s : Select} {out : Command}
    (h : s.compile d o = .ok out) {q : Select} (contained : (Node.block s).Contains (.block q)) :
    (∀ a ∈ q.allSources, ∃ before lead after,
      a.tokens d o = lead ++ [.name a.visibleName] ∧
      s.tokens d o = before ++ a.tokens d o ++ after ∧
      out.sql = d.textOf 1 (before ++ lead) ++ d.quoteName a.visibleName ++
        d.textOf (Token.after 1 (before ++ lead)) after) ∧
    ((q.allSources.map Source.visibleName).Nodup ↔
      q.allSources.Pairwise fun a b =>
        a.IsOverlooked ∨ b.IsOverlooked → a.visibleName ≠ b.visibleName) := by
  constructor
  · intro a ha
    obtain ⟨before, after, split, -⟩ :=
      text_contained hd h (contained.trans (Node.contains_source ha))
    obtain ⟨lead, written⟩ := a.tokens_visibleName (d := d) (o := o)
    have tokens : (Node.source a).tokens d o = lead ++ [Token.name a.visibleName] := written
    refine ⟨before, lead, after, written, split, ?_⟩
    rw [compile_sql h, split, tokens, ← List.append_assoc before, Dialect.textOf_append,
      Dialect.textOf_append, Dialect.textOf_singleton, Token.after_append _ (before ++ lead)]
    rfl
  · have sound := (exists_compile_iff hd o s).1 ⟨out, h⟩
    exact (sound _ contained).visibleNames_nodup_iff
      fun a ha => sound _ (contained.trans (Node.contains_source ha))

/-- Customers next to customers, under one name. -/
def customersTwice : Select where
  projections := [⟨.column ⟨"id", none, .int, false⟩, ""⟩]
  sources := [.table "customers" none none, .table "customers" none (some "")]

theorem compile_visibleNames_customersTwice :
    (∃ out, customersTwice.compile .postgres {} = .ok out ∧
      out.sql = "SELECT \"id\" FROM \"customers\", \"customers\"") ∧
    ¬(customersTwice.allSources.map Source.visibleName).Nodup ∧
    ¬customersTwice.allSources.Pairwise fun a b =>
      a.IsOverlooked ∨ b.IsOverlooked → a.visibleName ≠ b.visibleName := by
  have names := (Select.compile_visibleNames (d := .postgres) (o := {}) .postgres
    (s := customersTwice) rfl (.self _)).2
  have repeated : ¬(customersTwice.allSources.map Source.visibleName).Nodup := by decide
  exact ⟨⟨_, rfl, by decide⟩, repeated, mt names.2 repeated⟩

end SelectCompiler
