import SelectCompiler.Proofs.Text.Outside

/-!
FROM clauses as they are read. Commas divide a clause into entries; a join belongs to the entry in
which it stands. Main statement: entries that are written one after the other are read as such.
-/

namespace SelectCompiler

structure TableReading where
  schema : Option String
  name : String
  aliasName : Option String
deriving DecidableEq

/-- The name by which conditions refer to a table. -/
def TableReading.visibleName (t : TableReading) : String := t.aliasName.getD t.name

/-- A joined table; the condition is left as it is written. -/
structure JoinReading where
  kind : JoinKind
  table : TableReading
  condition : Option (List Lexeme)
deriving DecidableEq

/-- A table between two commas and the joins that hang on it. -/
structure EntryReading where
  table : TableReading
  joins : List JoinReading
deriving DecidableEq

namespace Lexeme

/-- The words that begin a join. -/
def headWords : List String := ["INNER", "LEFT", "CROSS"]

/-- The words of the clauses behind a FROM clause. -/
def laterWords : List String := ["WHERE", "GROUP", "HAVING", "ORDER", "LIMIT", "OFFSET", "FETCH"]

def tableReading? : List Lexeme → Option TableReading
  | [name n] => some ⟨none, n, none⟩
  | [name n, name a] | [name n, keyword .as, name a] => some ⟨none, n, some a⟩
  | [name s, dot, name n] => some ⟨some s, n, none⟩
  | [name s, dot, name n, name a] | [name s, dot, name n, keyword .as, name a] =>
    some ⟨some s, n, some a⟩
  | _ => none

def joinKind? : Lexeme → Option JoinKind
  | word "INNER" => some .inner
  | word "LEFT" => some .left
  | word "CROSS" => some .cross
  | _ => none

def joinReading? : List Lexeme → Option JoinReading
  | first :: word "JOIN" :: ls =>
    let (table, condition) := cut (isWordOf ["ON"]) ls
    (joinKind? first).bind fun kind => (tableReading? table).map fun table =>
      ⟨kind, table, if condition.isEmpty then none else some condition.tail⟩
  | _ => none

def entryReading? (ls : List Lexeme) : Option EntryReading :=
  let (table, joins) := sections (isWordOf headWords) 0 ls
  (tableReading? table).bind fun table => (joins.mapM joinReading?).map fun joins => ⟨table, joins⟩

/-- What stands between commas. -/
def commaParts (ls : List Lexeme) : List (List Lexeme) :=
  (sections (· == comma) 0 ls).1 :: (sections (· == comma) 0 ls).2.map List.tail

/-- The entries between commas. `DUAL` has a row, but no columns. -/
def entriesReading? (ls : List Lexeme) : Option (List EntryReading) :=
  if ls = [word "DUAL"] then some [] else (commaParts ls).mapM entryReading?

/-- The FROM clause of a block, which ends where the next clause begins. -/
def fromReading? (ls : List Lexeme) : Option (List EntryReading) :=
  match (cut (isWordOf ["FROM"]) ls).2 with
  | [] => some []
  | _ :: behind => entriesReading? (cut (isWordOf laterWords) behind).1

end Lexeme

/-- The entries of tables when all joins hang on the last. -/
def entriesOf : List TableReading → List JoinReading → List EntryReading
  | [], _ => []
  | [t], js => [⟨t, js⟩]
  | t :: u :: ts, js => ⟨t, []⟩ :: entriesOf (u :: ts) js

/-! ### Written entries -/

open Lexeme

/-- The lexemes of a table, the dialect writing `AS` or not. -/
def TableReading.lexemes (asWord : Bool) (t : TableReading) : List Lexeme :=
  (t.schema.elim [] fun s => [.name s, .dot]) ++ .name t.name ::
    (t.aliasName.elim [] fun a => (if asWord then [.keyword .as] else []) ++ [.name a])

def JoinReading.lexemes (asWord : Bool) (j : JoinReading) : List Lexeme :=
  (joinWords j.kind).map .word ++ j.table.lexemes asWord ++
    (j.condition.elim [] (.word "ON" :: ·))

/-- The lexemes of a FROM clause, behind its keyword. -/
def clauseLexemes (asWord : Bool) : List TableReading → List JoinReading → List Lexeme
  | [], _ => []
  | [t], js => t.lexemes asWord ++ js.flatMap (JoinReading.lexemes asWord)
  | t :: u :: ts, js => t.lexemes asWord ++ .comma :: clauseLexemes asWord (u :: ts) js

/-- The commas and words at which a FROM clause is divided. -/
def Lexeme.fromMark? : Lexeme → Option String
  | comma => some ","
  | l => wordIn? ("ON" :: headWords ++ laterWords) l

/-- Nothing in it divides a FROM clause. -/
structure IsUndivided (ls : List Lexeme) : Prop where
  balanced : IsBalanced (ls.filterMap parenthesis?)
  unmarked : picked fromMark? ls = []

namespace IsUndivided

variable {ls : List Lexeme}

theorem passes (h : IsUndivided ls) {table : List String}
    (sub : ∀ w ∈ table, w ∈ "ON" :: headWords ++ laterWords) : Passes (isWordOf table) ls where
  balanced := h.balanced
  begun l hl := by
    have none := picked_eq_nil_iff.1 h.unmarked l hl
    cases l with
    | word w =>
      refine Option.isSome_eq_false_iff.2 (Option.isNone_iff_eq_none.2 (if_neg fun mem => ?_))
      rw [fromMark?, wordIn?, if_pos (sub _ mem)] at none
      · cases none
      · nofun
    | _ => rfl

theorem passes_comma (h : IsUndivided ls) : Passes (· == comma) ls where
  balanced := h.balanced
  begun l hl := by
    rw [beq_eq_false_iff_ne]
    rintro rfl
    cases picked_eq_nil_iff.1 h.unmarked _ hl

end IsUndivided

theorem TableReading.passes {begins : Lexeme → Bool} (name : ∀ n, begins (.name n) = false)
    (dot : begins .dot = false) («as» : begins (.keyword .as) = false) (asWord : Bool)
    (t : TableReading) : Passes begins (t.lexemes asWord) := by
  obtain ⟨schema, n, aliasName⟩ := t
  have one (n : String) : Passes begins [.name n] := .singleton rfl (name n)
  have lead : Passes begins (schema.elim [] fun s => [.name s, .dot]) := by
    cases schema with
    | none => exact .nil
    | some s => exact (one s).append (.singleton rfl dot)
  have last : Passes begins
      (aliasName.elim [] fun a =>
        (if asWord then [Lexeme.keyword .as] else []) ++ [Lexeme.name a]) := by
    cases aliasName with
    | none => exact .nil
    | some a =>
      cases asWord with
      | false => exact one a
      | true => exact Passes.append (.singleton rfl «as») (one a)
  exact lead.append ((one n).append last)

theorem TableReading.reading (asWord : Bool) (t : TableReading) :
    tableReading? (t.lexemes asWord) = some t := by
  obtain ⟨schema, name, aliasName⟩ := t
  cases schema <;> cases aliasName <;> cases asWord <;> rfl

/-- A join that can be written: no `APPLY`, and a condition that does not divide the clause. -/
structure JoinReading.IsWritten (j : JoinReading) : Prop where
  kind : j.kind = .inner ∨ j.kind = .left ∨ j.kind = .cross
  condition : ∀ c ∈ j.condition, IsUndivided c

namespace JoinReading

variable {asWord : Bool} {j : JoinReading} {js : List JoinReading}

/-- What stands behind the first word of a join. -/
def behind (asWord : Bool) (j : JoinReading) : List Lexeme :=
  .word "JOIN" :: (j.table.lexemes asWord ++ j.condition.elim [] (.word "ON" :: ·))

theorem exists_lexemes (h : j.IsWritten) (asWord : Bool) :
    ∃ w ∈ headWords, joinKind? (.word w) = some j.kind ∧
      j.lexemes asWord = .word w :: j.behind asWord := by
  obtain ⟨kind, table, condition⟩ := j
  obtain ⟨rfl | rfl | rfl, -⟩ := h
  · exact ⟨"INNER", by decide, rfl, rfl⟩
  · exact ⟨"LEFT", by decide, rfl, rfl⟩
  · exact ⟨"CROSS", by decide, rfl, rfl⟩

/-- A join is divided by its first word and in front of its condition only. -/
theorem passes_behind {begins : Lexeme → Bool} (h : j.IsWritten)
    (name : ∀ n, begins (.name n) = false) (dot : begins .dot = false)
    («as» : begins (.keyword .as) = false)
    (words : ∀ w ∈ ["JOIN", "ON"], begins (.word w) = false)
    (condition : ∀ c, IsUndivided c → Passes begins c) (asWord : Bool) :
    Passes begins (j.behind asWord) := by
  have join : Passes begins [.word "JOIN"] := .singleton rfl (words _ (by simp))
  have on : Passes begins [.word "ON"] := .singleton rfl (words _ (by simp))
  have last : Passes begins (j.condition.elim [] (.word "ON" :: ·)) := by
    cases eq : j.condition with
    | none => exact .nil
    | some c => exact on.append (condition c (h.condition c eq))
  exact join.append ((j.table.passes name dot «as» asWord).append last)

theorem reading (h : j.IsWritten) : joinReading? (j.lexemes asWord) = some j := by
  obtain ⟨w, -, kind, eq⟩ := exists_lexemes h asWord
  have table : Passes (isWordOf ["ON"]) (j.table.lexemes asWord) :=
    j.table.passes (fun _ => rfl) rfl rfl asWord
  have divided : cut (isWordOf ["ON"]) (j.table.lexemes asWord ++
      j.condition.elim [] (.word "ON" :: ·)) =
        (j.table.lexemes asWord, j.condition.elim [] (.word "ON" :: ·)) := by
    rw [table.cut rfl rfl]
    cases j.condition with
    | none => simp
    | some c =>
      have on (rest : List Lexeme) :
          cut (isWordOf ["ON"]) (.word "ON" :: rest) = ([], .word "ON" :: rest) :=
        cut_cons rfl rfl (by decide) rest
      simp [on]
  rw [eq, behind, joinReading?, divided]
  simp only [kind, TableReading.reading, Option.bind_some, Option.map_some]
  obtain ⟨k, t, condition⟩ := j
  cases condition <;> rfl

/-- Joins that stand behind a table divide the entry at their first words. -/
theorem sections_joins (h : ∀ j ∈ js, j.IsWritten) :
    sections (isWordOf headWords) 0 (js.flatMap (lexemes asWord)) =
      ([], js.map (lexemes asWord)) := by
  have heads : ∀ w ∈ headWords, isWordOf headWords (.word w) = true := by decide
  induction js with
  | nil => rfl
  | cons j js ih =>
    obtain ⟨first, rest⟩ := List.forall_mem_cons.1 h
    obtain ⟨w, head, -, eq⟩ := exists_lexemes first asWord
    have behind : Passes (isWordOf headWords) (j.behind asWord) :=
      passes_behind first (fun _ => rfl) rfl rfl (by decide) (fun _ hc => hc.passes (by decide)) asWord
    rw [List.flatMap_cons, eq, List.cons_append, sections_cons rfl rfl (heads w head),
      behind.sections rfl rfl, ih rest, List.append_nil, List.map_cons, eq]

theorem readings (h : ∀ j ∈ js, j.IsWritten) :
    (js.map (lexemes asWord)).mapM joinReading? = some js := by
  induction js with
  | nil => rfl
  | cons j js ih =>
    obtain ⟨first, rest⟩ := List.forall_mem_cons.1 h
    simp [List.mapM_cons, reading first, ih rest]

theorem entryReading (h : ∀ j ∈ js, j.IsWritten) (t : TableReading) :
    entryReading? (t.lexemes asWord ++ js.flatMap (lexemes asWord)) = some ⟨t, js⟩ := by
  have table : Passes (isWordOf headWords) (t.lexemes asWord) :=
    t.passes (fun _ => rfl) rfl rfl asWord
  rw [entryReading?, table.sections rfl rfl, sections_joins h]
  simp [TableReading.reading, readings h]

/-- Joins are passed over by what stops at neither their words nor in their conditions. -/
theorem passes {begins : Lexeme → Bool} (h : ∀ j ∈ js, j.IsWritten)
    (name : ∀ n, begins (.name n) = false) (dot : begins .dot = false)
    («as» : begins (.keyword .as) = false)
    (words : ∀ w ∈ "JOIN" :: "ON" :: headWords, begins (.word w) = false)
    (condition : ∀ c, IsUndivided c → Passes begins c) (asWord : Bool) :
    Passes begins (js.flatMap (lexemes asWord)) := by
  refine .flatMap fun j hj => ?_
  obtain ⟨w, head, -, eq⟩ := exists_lexemes (h j hj) asWord
  have behind : Passes begins (j.behind asWord) := passes_behind (h j hj) name dot «as»
    (fun w hw => words w (List.mem_append_left headWords hw)) condition asWord
  have first : Passes begins [.word w] :=
    .singleton rfl (words w (List.mem_cons_of_mem _ (List.mem_cons_of_mem _ head)))
  exact eq ▸ first.append behind

end JoinReading

/-! ### Written clauses -/

namespace Lexeme

theorem commaParts_comma {ls : List Lexeme} (h : Passes (· == comma) ls) (rest : List Lexeme) :
    commaParts (ls ++ comma :: rest) = ls :: commaParts rest := by
  have divided : sections (· == comma) 0 (comma :: rest) = _ := sections_cons rfl rfl rfl rest
  rw [commaParts, h.sections rfl rfl, divided]
  simp [commaParts]

theorem commaParts_passes {ls : List Lexeme} (h : Passes (· == comma) ls) :
    commaParts ls = [ls] := by
  have parts := h.sections rfl rfl []
  rw [List.append_nil] at parts
  rw [commaParts, parts]
  simp [sections]

end Lexeme

section Clauses

variable {asWord : Bool} {ts : List TableReading} {js : List JoinReading}

theorem clauseLexemes_parts (h : ∀ j ∈ js, j.IsWritten) (ne : ts ≠ []) :
    (commaParts (clauseLexemes asWord ts js)).mapM entryReading? = some (entriesOf ts js) := by
  have table (t : TableReading) : Passes (· == comma) (t.lexemes asWord) :=
    t.passes (fun _ => rfl) rfl rfl asWord
  have joins : Passes (· == comma) (js.flatMap (JoinReading.lexemes asWord)) :=
    JoinReading.passes h (fun _ => rfl) rfl rfl (by decide) (fun _ hc => hc.passes_comma) asWord
  have alone (t : TableReading) : entryReading? (t.lexemes asWord) = some ⟨t, []⟩ := by
    have read : entryReading? (t.lexemes asWord ++ [].flatMap (JoinReading.lexemes asWord)) = _ :=
      JoinReading.entryReading (by simp) t
    simpa using read
  induction ts with
  | nil => exact absurd rfl ne
  | cons t ts ih =>
    cases ts with
    | nil =>
      rw [clauseLexemes, commaParts_passes ((table t).append joins)]
      simp [JoinReading.entryReading h, entriesOf]
    | cons u ts =>
      rw [clauseLexemes, commaParts_comma (table t)]
      simp [List.mapM_cons, alone, ih nofun, entriesOf]

theorem entriesReading_clause (h : ∀ j ∈ js, j.IsWritten) (ne : ts ≠ []) :
    entriesReading? (clauseLexemes asWord ts js) = some (entriesOf ts js) := by
  have named : ∃ n, Lexeme.name n ∈ clauseLexemes asWord ts js := by
    cases ts with
    | nil => exact absurd rfl ne
    | cons t ts => cases ts <;> exact ⟨t.name, by simp [clauseLexemes, TableReading.lexemes]⟩
  have other : clauseLexemes asWord ts js ≠ [.word "DUAL"] := fun eq => by
    obtain ⟨n, hn⟩ := named
    rw [eq] at hn
    cases List.mem_singleton.1 hn
  rw [entriesReading?, if_neg other, clauseLexemes_parts h ne]

theorem clauseLexemes_passes (h : ∀ j ∈ js, j.IsWritten) :
    Passes (isWordOf laterWords) (clauseLexemes asWord ts js) := by
  have table (t : TableReading) : Passes (isWordOf laterWords) (t.lexemes asWord) :=
    t.passes (fun _ => rfl) rfl rfl asWord
  have comma : Passes (isWordOf laterWords) [comma] := .singleton rfl rfl
  induction ts with
  | nil => exact .nil
  | cons t ts ih =>
    cases ts with
    | nil =>
      exact (table t).append (JoinReading.passes h (fun _ => rfl) rfl rfl (by decide)
        (fun _ hc => hc.passes (by decide)) asWord)
    | cons u ts => exact (table t).append (comma.append ih)

/-- A FROM clause between what stands before its keyword and the clause behind it. -/
theorem fromReading_eq {lead clause later : List Lexeme} (before : Passes (isWordOf ["FROM"]) lead)
    (within : Passes (isWordOf laterWords) clause)
    (behind : later = [] ∨ ∃ w ∈ laterWords, ∃ ls, later = .word w :: ls) :
    fromReading? (lead ++ Lexeme.word "FROM" :: (clause ++ later)) = entriesReading? clause := by
  have «from» : isWordOf ["FROM"] (.word "FROM") = true := by decide
  have words : ∀ w ∈ laterWords, isWordOf laterWords (.word w) = true := by decide
  have ends : cut (isWordOf laterWords) later = ([], later) := by
    rcases behind with rfl | ⟨w, hw, ls, rfl⟩
    · rfl
    · exact cut_cons rfl rfl (words w hw) ls
  simp only [fromReading?, before.cut rfl rfl, cut_cons rfl rfl «from», within.cut rfl rfl, ends,
    List.append_nil]

theorem fromReading_passes {ls : List Lexeme} (h : Passes (isWordOf ["FROM"]) ls) :
    fromReading? ls = some [] := by
  have all := h.cut rfl rfl []
  rw [List.append_nil, cut_nil] at all
  rw [fromReading?, all]

end Clauses

end SelectCompiler
