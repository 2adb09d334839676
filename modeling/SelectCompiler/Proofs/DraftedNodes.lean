import SelectCompiler.Proofs.Drafts.Agreement

/-!
Nodes in drafts. Main statement: a node adds the same to every draft, its placeholders numbered on
from the values bound there, or is refused by every draft. So a query in a query says what it
compiles to by itself, numbered on.
-/

namespace SelectCompiler

variable {d : Dialect} {o : Options}

/-! ### Passages -/

/-- Text without the numbers of its placeholders: what stands before the first one, and every bound
value with what stands behind its placeholder. -/
structure Passage where
  first : String
  rest : List (Binding × String)

namespace Command

def empty : Command := ⟨"", []⟩

def followedBy (d : Dialect) (c : Command) (x : Passage) : Command where
  sql := c.sql ++ d.numbered (c.parameters.length + 1) x.first (x.rest.map Prod.snd)
  parameters := c.parameters ++ x.rest.map Prod.fst

end Command

namespace Dialect

def passage (d : Dialect) (ts : List Token) : Passage where
  first := d.plainText (Token.pieces ts).1
  rest := (Token.bindings ts).zip ((Token.pieces ts).2.map d.plainText)

/-- Where placeholders have no numbers, it does not matter how many there are before. -/
theorem numbered_of_unnumbered (h : d.placeholder = .unnumbered) (n m : Nat) (s : String)
    (ts : List String) : d.numbered n s ts = d.numbered m s ts := by
  have same (position : Nat) : d.placeholderText position = "?" := by rw [placeholderText, h]
  induction ts generalizing n m s with
  | nil => rfl
  | cons t ts ih => rw [numbered, numbered, same, same, ih (n + 1) (m + 1)]

end Dialect

namespace Command

theorem extend_eq (d : Dialect) (c : Command) (ts : List Token) :
    c.extend d ts = c.followedBy d (d.passage ts) := by
  have aligned : (Token.bindings ts).length = ((Token.pieces ts).2.map d.plainText).length := by
    rw [List.length_map, Token.length_pieces]
  have texts : (d.passage ts).rest.map Prod.snd = (Token.pieces ts).2.map d.plainText :=
    List.map_snd_zip aligned.ge
  have values : (d.passage ts).rest.map Prod.fst = Token.bindings ts := List.map_fst_zip aligned.le
  rw [followedBy, texts, values, extend, Dialect.textOf, Dialect.texts_pieces]
  rfl

theorem empty_extend (d : Dialect) (ts : List Token) : empty.extend d ts = d.command ts := by
  rw [extend, Dialect.command]
  simp [empty, Dialect.textOf]

theorem followedBy_of_unnumbered (h : d.placeholder = .unnumbered) (c : Command) (x : Passage) :
    c.followedBy d x =
      ⟨c.sql ++ (empty.followedBy d x).sql, c.parameters ++ (empty.followedBy d x).parameters⟩ := by
  rw [followedBy, followedBy, Dialect.numbered_of_unnumbered h (c.parameters.length + 1)
    (empty.parameters.length + 1)]
  simp [empty]

end Command

/-! ### Nodes by themselves -/

namespace Node

/-- Compiles a node as if it were a query. -/
def compile (d : Dialect) (o : Options) (n : Node) : Except Fault Command :=
  match n.faults d o with
  | [] => .ok (d.command (n.tokens d o))
  | fault :: _ => .error fault

@[simp] theorem compile_block (q : Select) : (block q).compile d o = q.compile d o := rfl

theorem compile_eq_ok_iff {n : Node} {out : Command} :
    n.compile d o = .ok out ↔ n.faults d o = [] ∧ d.command (n.tokens d o) = out := by
  unfold compile
  cases n.faults d o <;> simp

theorem faults_contained (hd : d.BuiltIn) {n k : Node} (none : n.faults d o = [])
    (h : n.Contains k) : k.faults d o = [] := by
  rw [faults_eq_nil_iff hd] at none ⊢
  exact fun m hm => none m (h.trans hm)

theorem run_draft (hd : d.BuiltIn) (n : Node) (c : Command) :
    (n.draft d o).run c = (n.compile d o).map fun _ => ((), c.extend d (n.tokens d o)) := by
  rw [draft_adds hd o n c, compile]
  cases n.faults d o <;> rfl

/-- Whether a node is refused, and for what, does not depend on the draft. Otherwise it adds one
passage, the same to every draft and the same that it compiles to by itself: the draft decides the
numbers of its placeholders, by how many values are bound, and nothing else. -/
theorem draft_frame (hd : d.BuiltIn) (o : Options) (n : Node) : ∃ x : Passage,
    (∀ c : Command,
      (n.draft d o).run c = (n.compile d o).map fun _ => ((), c.followedBy d x)) ∧
    (∀ out, n.compile d o = .ok out → out = Command.empty.followedBy d x) ∧
    (d.placeholder = .unnumbered → ∀ c : Command, c.followedBy d x =
      ⟨c.sql ++ (Command.empty.followedBy d x).sql,
        c.parameters ++ (Command.empty.followedBy d x).parameters⟩) ∧
    ∀ (s : Select) (whole : Command), s.compile d o = .ok whole → (block s).Contains n →
      n.compile d o = .ok (Command.empty.followedBy d x) ∧
      ∃ before behind : Passage,
        whole = ((Command.empty.followedBy d before).followedBy d x).followedBy d behind := by
  have own {ts : List Token} : Command.empty.followedBy d (d.passage ts) = d.command ts := by
    rw [← Command.extend_eq, Command.empty_extend]
  refine ⟨d.passage (n.tokens d o), fun c => ?_, fun out compiled => ?_,
    fun unnumbered c => Command.followedBy_of_unnumbered unnumbered c _,
    fun s whole compiled contained => ?_⟩
  · rw [run_draft hd, Command.extend_eq]
  · obtain ⟨-, rfl⟩ := compile_eq_ok_iff.1 compiled
    exact own.symm
  · obtain ⟨none, rfl⟩ := Select.compile_ok compiled
    obtain ⟨before, behind, split⟩ := infix_contained hd (n := block s) none contained
    refine ⟨compile_eq_ok_iff.2 ⟨faults_contained hd (n := block s) none contained, own.symm⟩,
      d.passage before, d.passage behind, ?_⟩
    have written : s.tokens d o = before ++ n.tokens d o ++ behind := split.symm
    rw [written, ← Command.empty_extend, Command.extend_append, Command.extend_append,
      Command.extend_eq, Command.extend_eq, Command.extend_eq]

end Node

def customersOfCity : Select :=
  { projections := [⟨.column ⟨"id", none, .int, false⟩, ""⟩]
    sources := [.table "customers" none none]
    predicate := some (.binary (.column ⟨"city", none, .text, true⟩) .equal
      (.parameter ⟨"city", .text "Oslo", .text⟩) .boolean) }

/-- A query that contains another one, and may bind a value before it. -/
def ordersOfCity : Select :=
  { sources := [.table "orders" none none]
    predicate := some (.inSelect (.column ⟨"customer", none, .int, false⟩) customersOfCity false)
    limit := some (.literal ⟨.int 5, .int⟩) }

theorem draft_frame_customersOfCity :
    (∃ (x before behind : Passage) (whole : Command),
      customersOfCity.compile (.sqlServer "dbo") ⟨true⟩ =
        .ok (Command.empty.followedBy (.sqlServer "dbo") x) ∧
      (∀ c, (customersOfCity.draft (.sqlServer "dbo") ⟨true⟩).run c =
        .ok ((), c.followedBy (.sqlServer "dbo") x)) ∧
      ordersOfCity.compile (.sqlServer "dbo") ⟨true⟩ = .ok whole ∧
      whole = ((Command.empty.followedBy (.sqlServer "dbo") before).followedBy
        (.sqlServer "dbo") x).followedBy (.sqlServer "dbo") behind ∧
      whole.sql = "SELECT TOP(@p1) 1 FROM [orders] WHERE [customer] IN " ++
        "(SELECT [id] FROM [customers] WHERE [city] = @p2)") ∧
    ∃ out, customersOfCity.compile .sqlite ⟨true⟩ = .ok out ∧
      ∀ c, (customersOfCity.draft .sqlite ⟨true⟩).run c =
        .ok ((), ⟨c.sql ++ out.sql, c.parameters ++ out.parameters⟩) := by
  constructor
  · obtain ⟨x, runs, own, -, nested⟩ :=
      Node.draft_frame (.sqlServer "dbo") ⟨true⟩ (.block customersOfCity)
    have contained : (Node.block ordersOfCity).Contains (.block customersOfCity) :=
      .part (m := .expr (.inSelect (.column ⟨"customer", none, .int, false⟩) customersOfCity false))
        (by simp [Node.parts, ordersOfCity])
        (.part (by simp [Node.parts]) (.self _))
    obtain ⟨compiled, before, behind, split⟩ := nested ordersOfCity _ rfl contained
    exact ⟨x, before, behind, _, compiled, runs, rfl, split, by decide +kernel⟩
  · obtain ⟨x, runs, own, unnumbered, -⟩ := Node.draft_frame .sqlite ⟨true⟩ (.block customersOfCity)
    have compiled : customersOfCity.compile .sqlite ⟨true⟩ = .ok _ := rfl
    refine ⟨_, compiled, fun c => ?_⟩
    have adds := runs c
    rw [Node.compile_block, compiled, unnumbered rfl, ← own _ compiled] at adds
    exact adds

end SelectCompiler
