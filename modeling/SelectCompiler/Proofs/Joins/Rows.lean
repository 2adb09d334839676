import Mathlib.Data.List.Basic
import SelectCompiler.Proofs.Joins.Reading

/-!
The rows of joined tables. Main statement: joins whose conditions refer to the last factor of a
product, and to tables joined before, can be made before the product is.
-/

namespace SelectCompiler

variable {ρ : Type}

/-- The rows of some tables next to each other, under their names; `none` stands for nulls. -/
abbrev JoinedRow (ρ : Type) := List (String × Option ρ)

/-- What conditions mean, as they are written. -/
structure Conditions (ρ : Type) where
  /-- The tables of the FROM clause that a condition refers to. -/
  uses : List Lexeme → List String
  holds : List Lexeme → JoinedRow ρ → Bool

/-- The rows of the tables of a database. -/
abbrev Tables (ρ : Type) := (schema : Option String) → (name : String) → List ρ

namespace Conditions

variable (m : Conditions ρ)

/-- Only the tables that a condition refers to decide on it. -/
def admits : Option (List Lexeme) → JoinedRow ρ → Bool
  | none, _ => true
  | some c, row => m.holds c (row.filter fun p => p.1 ∈ m.uses c)

/-- Every condition refers to tables that are listed, joined before it or joined by it. -/
def InScope : (listed : List String) → List JoinReading → Prop
  | _, [] => True
  | listed, j :: js =>
    (∀ c ∈ j.condition, ∀ a ∈ m.uses c, a ∈ j.table.visibleName :: listed) ∧
      InScope (j.table.visibleName :: listed) js

instance decidableInScope :
    (listed : List String) → (js : List JoinReading) → Decidable (m.InScope listed js)
  | _, [] => .isTrue trivial
  | listed, j :: js =>
    have := decidableInScope (j.table.visibleName :: listed) js
    inferInstanceAs (Decidable ((∀ c ∈ j.condition, _) ∧ _))

end Conditions

section Rows

variable (m : Conditions ρ) (tables : Tables ρ)

def TableReading.rows (t : TableReading) : List (JoinedRow ρ) :=
  (tables t.schema t.name).map fun r => [(t.visibleName, some r)]

/-- A row next to all rows of a table that the condition admits. A left join keeps a row without any,
next to nulls. -/
def JoinReading.extend (j : JoinReading) (row : JoinedRow ρ) : List (JoinedRow ρ) :=
  match j.kind, ((j.table.rows tables).map (row ++ ·)).filter (m.admits j.condition) with
  | .left, [] => [row ++ [(j.table.visibleName, none)]]
  | _, rows => rows

def joined (js : List JoinReading) (rows : List (JoinedRow ρ)) : List (JoinedRow ρ) :=
  js.foldl (fun rows j => rows.flatMap (j.extend m tables)) rows

/-- Every row of the one next to every row of the other. -/
def paired (xs ys : List (JoinedRow ρ)) : List (JoinedRow ρ) := xs.flatMap fun x => ys.map (x ++ ·)

def product (factors : List (List (JoinedRow ρ))) : List (JoinedRow ρ) := factors.foldr paired [[]]

/-- A condition cannot refer to the tables of another entry. -/
def EntryReading.rows? (e : EntryReading) : Option (List (JoinedRow ρ)) :=
  if m.InScope [e.table.visibleName] e.joins then some (joined m tables e.joins (e.table.rows tables))
  else none

/-- The rows of a FROM clause: its entries are joined first, and multiplied then. -/
def entryRows? (es : List EntryReading) : Option (List (JoinedRow ρ)) :=
  (es.mapM (EntryReading.rows? m tables)).map product

end Rows

variable {m : Conditions ρ} {tables : Tables ρ}

theorem paired_unit (xs : List (JoinedRow ρ)) : paired xs [[]] = xs := by
  simp [paired]

theorem Conditions.admits_append {c : Option (List Lexeme)} {x : JoinedRow ρ}
    (unused : ∀ c' ∈ c, ∀ p ∈ x, p.1 ∉ m.uses c') (y : JoinedRow ρ) :
    m.admits c (x ++ y) = m.admits c y := by
  cases c with
  | none => rfl
  | some c =>
    have none : x.filter (fun p => p.1 ∈ m.uses c) = [] :=
      List.filter_eq_nil_iff.2 fun p hp => by simpa using unused c rfl p hp
    rw [admits, admits, List.filter_append, none, List.nil_append]

/-- What a condition does not refer to is only put in front. -/
theorem JoinReading.extend_append {j : JoinReading} {x : JoinedRow ρ}
    (unused : ∀ c ∈ j.condition, ∀ p ∈ x, p.1 ∉ m.uses c) (y : JoinedRow ρ) :
    j.extend m tables (x ++ y) = (j.extend m tables y).map (x ++ ·) := by
  have behind : m.admits j.condition ∘ (x ++ ·) = m.admits j.condition :=
    funext (Conditions.admits_append unused)
  have matched : ((j.table.rows tables).map (x ++ y ++ ·)).filter (m.admits j.condition) =
      (((j.table.rows tables).map (y ++ ·)).filter (m.admits j.condition)).map (x ++ ·) :=
    calc ((j.table.rows tables).map (x ++ y ++ ·)).filter (m.admits j.condition)
        = (((j.table.rows tables).map (y ++ ·)).map (x ++ ·)).filter (m.admits j.condition) := by
          simp only [List.map_map, Function.comp_def, List.append_assoc]
      _ = (((j.table.rows tables).map (y ++ ·)).filter (m.admits j.condition ∘ (x ++ ·))).map
            (x ++ ·) := List.filter_map
      _ = _ := by rw [behind]
  unfold extend
  rw [matched]
  generalize ((j.table.rows tables).map (y ++ ·)).filter (m.admits j.condition) = rows
  cases rows with
  | nil => cases j.kind <;> simp
  | cons row rows => simp

theorem flatMap_paired {f : JoinedRow ρ → List (JoinedRow ρ)} {xs : List (JoinedRow ρ)}
    (front : ∀ x ∈ xs, ∀ y, f (x ++ y) = (f y).map (x ++ ·)) (ys : List (JoinedRow ρ)) :
    (paired xs ys).flatMap f = paired xs (ys.flatMap f) := by
  unfold paired
  rw [List.flatMap_assoc]
  refine List.flatMap_congr fun x hx => ?_
  rw [List.flatMap_map, List.map_flatMap]
  exact List.flatMap_congr fun y _ => front x hx y

/-- Joins that refer to none of the tables of the first factor are joins of the second. -/
theorem joined_paired {js : List JoinReading} {xs : List (JoinedRow ρ)}
    (unused : ∀ j ∈ js, ∀ c ∈ j.condition, ∀ x ∈ xs, ∀ p ∈ x, p.1 ∉ m.uses c)
    (ys : List (JoinedRow ρ)) :
    joined m tables js (paired xs ys) = paired xs (joined m tables js ys) := by
  induction js generalizing ys with
  | nil => rfl
  | cons j js ih =>
    obtain ⟨first, rest⟩ := List.forall_mem_cons.1 unused
    have step : (paired xs ys).flatMap (j.extend m tables) =
        paired xs (ys.flatMap (j.extend m tables)) :=
      flatMap_paired (fun x hx y => JoinReading.extend_append (fun c hc => first c hc x hx) y) ys
    rw [joined, List.foldl_cons, step]
    exact ih rest _

/-! ### Entries -/

/-- The names that a condition can refer to there, besides those of its joins. -/
def lastName (ts : List TableReading) : List String :=
  (ts.getLast?.map TableReading.visibleName).toList

theorem Conditions.InScope.uses {listed : List String} {js : List JoinReading}
    (h : m.InScope listed js) : ∀ j ∈ js, ∀ c ∈ j.condition, ∀ a ∈ m.uses c,
      a ∈ js.map (·.table.visibleName) ∨ a ∈ listed := by
  induction js generalizing listed with
  | nil => simp
  | cons j js ih =>
    obtain ⟨first, rest⟩ := h
    intro k hk c hc a ha
    rcases List.mem_cons.1 hk with rfl | hk
    · exact (List.mem_cons.1 (first c hc a ha)).imp (fun eq => by simp [eq]) id
    · rcases ih rest k hk c hc a ha with later | earlier
      · exact .inl (List.mem_cons_of_mem _ later)
      · exact (List.mem_cons.1 earlier).imp (fun eq => by simp [eq]) id

theorem TableReading.name_of_mem_rows {t : TableReading} {x : JoinedRow ρ}
    (h : x ∈ t.rows tables) : ∀ p ∈ x, p.1 = t.visibleName := by
  obtain ⟨r, -, rfl⟩ := List.mem_map.1 h
  simp

theorem lastName_subset {ts : List TableReading} {a : String} (h : a ∈ lastName ts) :
    a ∈ ts.map TableReading.visibleName := by
  obtain ⟨t, ht, rfl⟩ := Option.map_eq_some_iff.1 (Option.mem_toList.1 h)
  exact List.mem_map_of_mem (List.mem_of_getLast? ht)

theorem entryRows?_cons (e : EntryReading) (es : List EntryReading) :
    entryRows? m tables (e :: es) =
      (e.rows? m tables).bind fun xs => (entryRows? m tables es).map (paired xs) := by
  rw [entryRows?, List.mapM_cons]
  cases e.rows? m tables with
  | none => rfl
  | some xs => cases h : es.mapM (EntryReading.rows? m tables) <;> simp [entryRows?, h, product]

/-- The rows of a FROM clause whose joins all hang on its last entry: where the conditions refer to
tables in scope there, they are those of the joins of the product. -/
theorem entryRows?_entriesOf {ts : List TableReading} {js : List JoinReading}
    (hanging : ts = [] → js = [])
    (distinct : (ts.map TableReading.visibleName ++ js.map (·.table.visibleName)).Nodup) :
    entryRows? m tables (entriesOf ts js) =
      if m.InScope (lastName ts) js then
        some (joined m tables js (product (ts.map (TableReading.rows tables))))
      else none := by
  induction ts with
  | nil =>
    obtain rfl := hanging rfl
    rfl
  | cons t ts ih =>
    cases ts with
    | nil =>
      have last : lastName [t] = [t.visibleName] := rfl
      rw [entriesOf, entryRows?_cons, EntryReading.rows?, last]
      split <;> simp [entryRows?, product, paired_unit]
    | cons u ts =>
      have others : (((u :: ts).map TableReading.visibleName) ++
          js.map (·.table.visibleName)).Nodup := (List.nodup_cons.1 distinct).2
      have fresh : t.visibleName ∉ (u :: ts).map TableReading.visibleName ++
          js.map (·.table.visibleName) := (List.nodup_cons.1 distinct).1
      have last : lastName (t :: u :: ts) = lastName (u :: ts) := rfl
      have first : EntryReading.rows? m tables ⟨t, []⟩ = some (t.rows tables) := if_pos trivial
      rw [entriesOf, entryRows?_cons, first, ih (absurd · (List.cons_ne_nil u ts)) others, last]
      split
      · rename_i scope
        have unused : ∀ j ∈ js, ∀ c ∈ j.condition, ∀ x ∈ t.rows tables, ∀ p ∈ x, p.1 ∉ m.uses c := by
          intro j hj c hc x hx p hp mem
          rw [TableReading.name_of_mem_rows hx p hp] at mem
          rcases scope.uses j hj c hc _ mem with joined | listed
          · exact fresh (List.mem_append_right _ joined)
          · exact fresh (List.mem_append_left _ (lastName_subset listed))
        exact congrArg some (joined_paired unused _).symm
      · rfl

end SelectCompiler
