import SelectCompiler.Proofs.Placeholders
import SelectCompiler.Proofs.Tree.NodeTokens

/-!
Drafts: a query written straight into a command, the text and the bound values together. A step adds to
a draft or refuses, and the number of a placeholder is found by counting the values that are bound
already. `Adds` says what a step does to every draft.
-/

namespace SelectCompiler

/-- A step of writing into a draft, which may be refused for a fault. -/
abbrev Drafting := StateT Command (Except Fault) Unit

namespace Drafting

/-! ### Steps -/

/-- Adds text in which nothing is bound. -/
def put (text : String) : Drafting := modify fun c => { c with sql := c.sql ++ text }

def refuse : List Fault → Drafting
  | [] => pure ()
  | fault :: _ => throw fault

def inTurn : List Drafting → Drafting
  | [] => pure ()
  | w :: ws => do
    w
    inTurn ws

/-- A list with a comma before each step but the first. -/
def listed : List Drafting → Drafting
  | [] => pure ()
  | w :: ws => do
    w
    inTurn (ws.map fun w => do
      put ", "
      w)

def enclosed (w : Drafting) : Drafting := do
  put "("
  w
  put ")"

def enclosedIf (needed : Bool) (w : Drafting) : Drafting := if needed then enclosed w else w

/-- A clause that is there when its content is. -/
def optionalClause (lead : String) : Option Drafting → Drafting
  | some w => do
    put lead
    w
  | none => pure ()

/-- A clause that is there when its list is not empty. -/
def listClause (lead : String) (ws : List Drafting) : Drafting :=
  if ws.isEmpty then pure ()
  else do
    put lead
    listed ws

end Drafting

namespace Dialect

open Drafting

variable (d : Dialect)

def putName (name : String) : Drafting := put (d.quoteName name)

/-- Binds a value to the next placeholder. -/
def bindNext (b : Binding) : Drafting := modify fun c =>
  { sql := c.sql ++ d.placeholderText (c.parameters.length + 1)
    parameters := c.parameters ++ [b] }

def putQualified (qualifier : Option String) (name : Drafting) : Drafting :=
  match qualifier with
  | some q => do
    d.putName q
    put "."
    name
  | none => name

def putFunction (schema : Option String) (isBuiltIn : Bool) (name : String) : Drafting :=
  d.putQualified (d.schemaOf isBuiltIn schema) (if isBuiltIn then put name else d.putName name)

def putAlias (aliasName : String) : Drafting := do
  put (if d.aliasWord then " AS " else " ")
  d.putName aliasName

end Dialect

/-! ### What a step adds -/

/-- The draft with tokens behind it, their placeholders numbered on from those it has. -/
def Command.extend (d : Dialect) (c : Command) (ts : List Token) : Command where
  sql := c.sql ++ d.textOf (c.parameters.length + 1) ts
  parameters := c.parameters ++ Token.bindings ts

theorem Command.extend_nil (d : Dialect) (c : Command) : c.extend d [] = c := by
  obtain ⟨sql, parameters⟩ := c
  simp [extend, Dialect.textOf, Dialect.texts, Token.bindings]

theorem Command.extend_append (d : Dialect) (c : Command) (a b : List Token) :
    c.extend d (a ++ b) = (c.extend d a).extend d b := by
  have next : Token.after (c.parameters.length + 1) a =
      (c.parameters ++ Token.bindings a).length + 1 := by
    rw [Token.after, List.length_append]
    omega
  simp only [extend, Dialect.textOf_append, Token.bindings_append, next, String.append_assoc,
    List.append_assoc]

/-- Whatever draft the step is taken in, it adds the tokens, or is refused for the first of the
faults. -/
def Drafting.Adds (d : Dialect) (w : Drafting) (faults : List Fault) (tokens : List Token) : Prop :=
  ∀ c : Command, w.run c = match faults with
    | [] => .ok ((), c.extend d tokens)
    | fault :: _ => .error fault

/-- A list is its first item and then each of the others behind a comma. -/
theorem Token.listed_cons (ts : List Token) (tss : List (List Token)) :
    Token.listed (ts :: tss) = ts ++ (tss.map ([Token.symbol ",", .space] ++ ·)).flatten := by
  induction tss generalizing ts with
  | nil => simp [Token.listed]
  | cons us tss ih =>
    rw [Token.listed, List.intercalate_cons_cons, ← Token.listed, ih]
    simp

namespace Drafting.Adds

variable {d : Dialect} {w w' : Drafting} {faults faults' : List Fault} {a b : List Token}

theorem congr (h : w.Adds d faults a) (hf : faults = faults') (ht : a = b) : w.Adds d faults' b := by
  subst hf ht
  exact h

theorem nothing : Adds d (pure ()) [] [] := by
  intro c
  rw [Command.extend_nil]
  rfl

theorem andThen (h : w.Adds d faults a) (h' : w'.Adds d faults' b) :
    Adds d (do w; w') (faults ++ faults') (a ++ b) := by
  intro c
  rw [StateT.run_bind, h c]
  cases faults with
  | nil =>
    -- the second step numbers on from what the first has bound
    change w'.run (c.extend d a) = _
    rw [h', List.nil_append, Command.extend_append]
  | cons fault faults => rfl

theorem put {text : String} (unbound : Token.bindings a = []) (same : ∀ n, d.textOf n a = text) :
    Adds d (put text) [] a := by
  intro c
  simp only [Command.extend, unbound, same, List.append_nil]
  rfl

theorem token (t : Token) (unbound : t.binding? = none) :
    Adds d (Drafting.put (d.tokenText 0 t)) [] [t] := by
  have bindings : Token.bindings [t] = [] := by
    rw [Token.bindings, List.filterMap_cons_none unbound]
    rfl
  refine put bindings fun n => ?_
  rw [Dialect.textOf_singleton, Dialect.tokenText_of_unbound unbound]

theorem bindNext (b : Binding) : Adds d (d.bindNext b) [] [.placeholder b] := by
  intro c
  simp only [Command.extend, Dialect.textOf_singleton]
  rfl

theorem refuse (faults : List Fault) : Adds d (refuse faults) faults [] := by
  cases faults with
  | nil => exact nothing
  | cons fault faults =>
    intro c
    rfl

/-- What is taken behind a check matters only where the check finds nothing. -/
theorem refusing (faults : List Fault) (h : faults = [] → w.Adds d faults' b) :
    Adds d (do Drafting.refuse faults; w) (faults ++ faults') b := by
  cases faults with
  | nil => exact nothing.andThen (h rfl)
  | cons fault faults =>
    intro c
    rfl

theorem clause (ws : List String) :
    Adds d (Drafting.put (" " ++ " ".intercalate ws ++ " ")) [] (Token.clause ws) :=
  put (Token.bindings_clause ws) fun n => Dialect.textOf_clause n ws

theorem space : Adds d (Drafting.put " ") [] [.space] := token .space rfl

theorem comma : Adds d (Drafting.put ", ") [] [.symbol ",", .space] := put rfl fun _ => rfl

theorem closing : Adds d (Drafting.put ")") [] [.symbol ")"] := token (.symbol ")") rfl

theorem enclosed (h : w.Adds d faults a) : w.enclosed.Adds d faults (Token.enclosed a) := by
  have opening : Adds d (Drafting.put "(") [] [.symbol "("] := token (.symbol "(") rfl
  exact (opening.andThen (h.andThen closing)).congr (by simp) rfl

theorem enclosedIf (needed : Bool) (h : w.Adds d faults a) :
    (w.enclosedIf needed).Adds d faults (Token.enclosedIf needed a) := by
  cases needed with
  | false => exact h
  | true => exact h.enclosed

section Lists

variable {α : Type} {f : α → Drafting} {g : α → List Fault} {k : α → List Token} {xs : List α}

theorem inTurn (h : ∀ x ∈ xs, (f x).Adds d (g x) (k x)) :
    Adds d (inTurn (xs.map f)) (xs.flatMap g) (xs.map k).flatten := by
  induction xs with
  | nil => exact nothing
  | cons x xs ih =>
    obtain ⟨first, rest⟩ := List.forall_mem_cons.1 h
    exact first.andThen (ih rest)

theorem listed (h : ∀ x ∈ xs, (f x).Adds d (g x) (k x)) :
    Adds d (listed (xs.map f)) (xs.flatMap g) (Token.listed (xs.map k)) := by
  cases xs with
  | nil => exact nothing
  | cons x xs =>
    obtain ⟨first, rest⟩ := List.forall_mem_cons.1 h
    have others := inTurn (f := fun x => do Drafting.put ", "; f x)
      (k := fun x => [Token.symbol ",", .space] ++ k x) fun x hx => comma.andThen (rest x hx)
    rw [List.map_cons, List.map_cons, Token.listed_cons, Drafting.listed, List.map_map, List.map_map]
    exact first.andThen others

theorem optionalClause {x? : Option α} (ws : List String) (lead : String)
    (words : " " ++ " ".intercalate ws ++ " " = lead) (h : ∀ x ∈ x?, (f x).Adds d (g x) (k x)) :
    Adds d (optionalClause lead (x?.map f)) (x?.toList.flatMap g)
      (Token.optionalClause ws (x?.map k)) := by
  subst words
  cases x? with
  | none => exact nothing
  | some x => exact ((clause ws).andThen (h x rfl)).congr (by simp) rfl

theorem listClause (ws : List String) (lead : String)
    (words : " " ++ " ".intercalate ws ++ " " = lead) (h : ∀ x ∈ xs, (f x).Adds d (g x) (k x)) :
    Adds d (listClause lead (xs.map f)) (xs.flatMap g) (Token.listClause ws (xs.map k)) := by
  subst words
  cases xs with
  | nil => exact nothing
  | cons x xs => exact (clause ws).andThen (listed h)

end Lists

theorem name (n : String) : Adds d (d.putName n) [] [.name n] := token (.name n) rfl

theorem qualified (qualifier : Option String) {t : Token} (h : w.Adds d [] [t]) :
    Adds d (d.putQualified qualifier w) [] (Token.qualified qualifier t) := by
  have dot : Adds d (Drafting.put ".") [] [.symbol "."] := token (.symbol ".") rfl
  cases qualifier with
  | none => exact h
  | some q => exact (name q).andThen (dot.andThen h)

theorem function (schema : Option String) (isBuiltIn : Bool) (n : String) :
    Adds d (d.putFunction schema isBuiltIn n) []
      (Token.qualified (d.schemaOf isBuiltIn schema) (Dialect.functionToken isBuiltIn n)) := by
  refine qualified _ ?_
  cases isBuiltIn with
  | false => exact name n
  | true => exact token (.verbatim n) rfl

theorem aliased (aliasName : String) :
    Adds d (d.putAlias aliasName) [] (d.aliasLead ++ [Token.name aliasName]) := by
  have lead : Adds d (Drafting.put (if d.aliasWord then " AS " else " ")) [] d.aliasLead := by
    unfold Dialect.aliasLead
    cases d.aliasWord with
    | false => exact space
    | true => exact clause ["AS"]
  exact lead.andThen (name aliasName)

end Drafting.Adds

end SelectCompiler
