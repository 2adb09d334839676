import SelectCompiler.Proofs.Acceptance
import SelectCompiler.Proofs.Arithmetic.Values
import SelectCompiler.Proofs.Tokens.PagingForms
import SelectCompiler.Proofs.Tree.NodeTokens

/-!
Row limits and offsets. Main statement: every block of a compiled query has one paging form of its
dialect, or none if it has neither limit nor offset, and read by the rules of the dialect that form
selects the same rows everywhere: those behind the offset, up to the limit.
-/

namespace SelectCompiler

open Token (items)

/-! ### Windows -/

/-- The rows behind the first ones, up to a limit. -/
structure Window where
  skipped : Nat := 0
  limit : Option Nat := none

def Window.rows {α : Type} (w : Window) (rows : List α) : List α :=
  match w.limit with
  | some n => (rows.drop w.skipped).take n
  | none => rows.drop w.skipped

def Item.number? : Item → Option Int
  | .token (.constant (.bare text)) => integer? text.toList
  | _ => none

def Item.rowCount? (x : Item) : Option Nat :=
  x.number?.bind fun n => if 0 ≤ n then some n.toNat else none

/-- The row limit that is written; a negative number is none where the dialect allows it. -/
def Dialect.rowLimit? (d : Dialect) (x : Item) : Option (Option Nat) :=
  x.number?.bind fun n =>
    if 0 ≤ n then some (some n.toNat) else if d.name = "sqlite" then some none else none

/-- A paging form as the dialect reads it. -/
def Dialect.window? (d : Dialect) : List (String × List Item) → Option Window
  | [] => some {}
  | [("TOP", .group count :: _)] =>
    match items count with
    | [l] =>
      if d.name = "sqlserver" then do return { limit := some (← l.rowCount?) } else none
    | _ => none
  | [("LIMIT", [l])] =>
    if d.name ∈ ["postgres", "mysql", "sqlite"] then do return { limit := ← d.rowLimit? l }
    else none
  | [("OFFSET", [k])] =>
    if d.name = "postgres" then do return { skipped := ← k.rowCount? } else none
  | [("OFFSET", [k]), ("LIMIT", [l])] =>
    if d.name = "postgres" then do
      return { skipped := ← k.rowCount?, limit := ← d.rowLimit? l }
    else none
  | [("LIMIT", [l]), ("OFFSET", [k])] =>
    if d.name ∈ ["mysql", "sqlite"] then do
      return { skipped := ← k.rowCount?, limit := ← d.rowLimit? l }
    else none
  | [("FETCH", [.token (.word "FIRST"), l, .token (.word "ROWS"), .token (.word "ONLY")])] =>
    if d.name = "oracle" then do return { limit := some (← l.rowCount?) } else none
  | [("OFFSET", [k, .token (.word "ROWS")])] =>
    if d.name ∈ ["sqlserver", "oracle"] then do return { skipped := ← k.rowCount? } else none
  | [("OFFSET", [k, .token (.word "ROWS")]),
      ("FETCH", [.token (.word "NEXT"), l, .token (.word "ROWS"), .token (.word "ONLY")])] =>
    if d.name ∈ ["sqlserver", "oracle"] then do
      return { skipped := ← k.rowCount?, limit := some (← l.rowCount?) }
    else none
  | _ => none

def Expr.rowCount? : Expr → Option Nat
  | .literal l => l.value.rowCount?
  | _ => none

/-- The window that constants as limit and offset of a block stand for. -/
def Select.window (q : Select) : Window where
  skipped := (q.offset.bind Expr.rowCount?).getD 0
  limit := q.limit.bind Expr.rowCount?

variable {d : Dialect} {o : Options}

/-! ### Reading the form -/

theorem Window.rows_of_short {α : Type} {rows : List α} {n : Nat} (short : rows.length < n)
    (skipped : Nat) : Window.rows ⟨skipped, some n⟩ rows = Window.rows ⟨skipped, none⟩ rows := by
  refine List.take_of_length_le ?_
  rw [List.length_drop]
  omega

/-- A constant that counts rows is written as one item, with its number. -/
theorem Expr.items_rowCount (inlined : o.bindLiterals = false) {e : Expr} {n : Nat}
    (count : e.rowCount? = some n) :
    ∃ x : Item, items (e.tokens d o) = [x] ∧ x.number? = some (n : Int) := by
  cases e with
  | literal l =>
    obtain ⟨value, type⟩ := l
    cases value with
    | int k =>
      have natural : 0 ≤ k.toInt ∧ k.toInt.toNat = n := by
        simpa [rowCount?, Value.rowCount?, Option.ite_none_right_eq_some] using count
      have number : k.toInt = n := by omega
      refine ⟨.token (.constant (.bare (toString k.toInt))), ?_, ?_⟩
      · rw [tokens, Dialect.literalToken, inlined]
        exact Token.items_plain rfl []
      · rw [Item.number?, integer?_toString, number]
    | _ => cases count
  | _ => cases count

theorem Item.rowCount?_of_number {x : Item} {n : Nat} (h : x.number? = some (n : Int)) :
    x.rowCount? = some n := by
  simp [rowCount?, h]

theorem Dialect.rowLimit?_of_number {x : Item} {n : Nat} (h : x.number? = some (n : Int)) :
    d.rowLimit? x = some (some n) := by
  simp [rowLimit?, h]

/-- The window of constants is the one that their paging form is read as. -/
theorem Dialect.window?_pagingForm (hd : d.BuiltIn) (inlined : o.bindLiterals = false)
    {limit offset : Option Expr} (hl : ∀ e ∈ limit, e.rowCount?.isSome = true)
    (hk : ∀ e ∈ offset, e.rowCount?.isSome = true) (rest : List Item) :
    ∃ w, d.window? (d.pagingForm (limit.map (Expr.tokens d o)) (offset.map (Expr.tokens d o))
        rest) = some w ∧
      ∀ {α : Type} (rows : List α), rows.length < UInt64.size - 1 →
        w.rows rows = Window.rows ⟨(offset.bind Expr.rowCount?).getD 0, limit.bind Expr.rowCount?⟩
          rows := by
  have part {e : Expr} (h : e.rowCount?.isSome = true) :
      ∃ n x, e.rowCount? = some n ∧ items (e.tokens d o) = [x] ∧ x.rowCount? = some n ∧
        d.rowLimit? x = some (some n) := by
    obtain ⟨n, count⟩ := Option.isSome_iff_exists.1 h
    obtain ⟨x, item, number⟩ := e.items_rowCount inlined count
    exact ⟨n, x, count, item, Item.rowCount?_of_number number, rowLimit?_of_number number⟩
  have names : postgres.name = "postgres" ∧ mysql.name = "mysql" ∧ sqlite.name = "sqlite" ∧
      (∀ schema, (sqlServer schema).name = "sqlserver") ∧ oracle.name = "oracle" :=
    ⟨rfl, rfl, rfl, fun _ => rfl, rfl⟩
  cases limit with
  | none =>
    cases offset with
    | none => exact ⟨{}, by cases hd <;> rfl, fun rows _ => rfl⟩
    | some k =>
      obtain ⟨n, x, count, item, skipped, -⟩ := part (hk k rfl)
      have window : Window.mk ((Option.bind (some k) Expr.rowCount?).getD 0) none = ⟨n, none⟩ := by
        simp [count]
      have all : mysql.rowLimit? (.token (.constant (.bare "18446744073709551615"))) =
          some (some 18446744073709551615) := by decide
      have unlimited : sqlite.rowLimit? (.token (.constant (.bare "-1"))) = some none := by decide
      rw [Option.bind_none, window]
      cases hd with
      | mysql =>
        -- the limit that stands for none is met by no list that is short enough
        refine ⟨⟨n, some 18446744073709551615⟩, ?_, fun rows short => Window.rows_of_short short n⟩
        simp [pagingForm, window?, names, item, skipped, all]
      | sqlite =>
        refine ⟨⟨n, none⟩, ?_, fun rows _ => rfl⟩
        simp [pagingForm, window?, names, item, skipped, unlimited]
      | _ =>
        refine ⟨⟨n, none⟩, ?_, fun rows _ => rfl⟩
        simp [pagingForm, window?, names, item, skipped, wordItems]
  | some l =>
    obtain ⟨m, y, count, item, counted, limited⟩ := part (hl l rfl)
    rw [Option.bind_some, count]
    cases offset with
    | none =>
      refine ⟨⟨0, some m⟩, ?_, fun rows _ => rfl⟩
      cases hd <;> simp [pagingForm, window?, names, item, counted, limited, wordItems]
    | some k =>
      obtain ⟨n, x, count, item', skipped, -⟩ := part (hk k rfl)
      refine ⟨⟨n, some m⟩, ?_, fun rows _ => by simp [count]⟩
      cases hd <;>
        simp [pagingForm, window?, names, item, item', skipped, counted, limited, wordItems]

/-! ### Blocks -/

/-- No raw text is looked into. -/
theorem isQuiet_none : IsQuiet fun _ => [] := nofun

/-- The words of a block that are written for its clauses. -/
def Select.writtenWords (d : Dialect) (o : Options) (q : Select) : List String :=
  Token.clauseWords (fun _ => []) (q.tokens d o)

theorem IsPart.ofWrites {ts : List Token} {shown : List String}
    (h : Writes (fun _ => []) ts shown) (none : ∀ w ∈ pagingWords, w ∉ shown) : IsPart ts :=
  ⟨h.closes, h.isUnpaged none⟩

theorem isPart_option (hd : d.BuiltIn) (o : Options) (e? : Option Expr) :
    ∀ ts ∈ e?.map (Expr.tokens d o), IsPart ts := by
  rintro ts hts
  obtain ⟨e, -, rfl⟩ := Option.map_eq_some_iff.1 hts
  exact .ofWrites (writes_expr hd o isQuiet_none e) fun w _ => List.not_mem_nil

theorem items_lead (distinct : Bool) (ts : List Token) :
    items ([Token.word "SELECT", .space] ++ Dialect.distinctTokens distinct ++ ts) =
      wordItems (["SELECT"] ++ if distinct then ["DISTINCT"] else []) ++ items ts := by
  cases distinct <;> rfl

/-- How a block is paged in a dialect. -/
structure Select.PagesIn (d : Dialect) (o : Options) (q : Select) : Prop where
  /-- The only form is the one of the dialect, with the limit and the offset in it. -/
  form : ∃ rest, pagingPhrases (items (q.tokens d o)) =
    d.pagingForm (q.limit.map (Expr.tokens d o)) (q.offset.map (Expr.tokens d o)) rest
  missing : pagingPhrases (items (q.tokens d o)) = [] ↔ q.limit = none ∧ q.offset = none
  /-- The limit and the offset are written nowhere else. -/
  once : ∃ middle, ∀ limit offset : Option Expr, offset.isSome = q.offset.isSome →
    (q.withPaging limit offset).tokens d o =
      [.word "SELECT", .space] ++ Dialect.distinctTokens q.distinct ++
        d.frontTokens (limit.map (Expr.tokens d o)) (offset.map (Expr.tokens d o)) ++ middle ++
        d.backTokens (limit.map (Expr.tokens d o)) (offset.map (Expr.tokens d o))
  /-- Inlined constants select their window. -/
  window : o.bindLiterals = false → (∀ e ∈ q.limit, ∃ l, e = .literal l) →
    (∀ e ∈ q.offset, ∃ l, e = .literal l) →
    ∃ w, d.window? (pagingPhrases (items (q.tokens d o))) = some w ∧
      ∀ {α : Type} (rows : List α), rows.length < UInt64.size - 1 → w.rows rows = q.window.rows rows
  /-- On SQL Server a limit without an offset stands directly behind `SELECT`. -/
  top : d.name = "sqlserver" →
    ((∃ rest, items (q.tokens d o) =
      wordItems (["SELECT"] ++ (if q.distinct then ["DISTINCT"] else []) ++ ["TOP"]) ++ rest) ↔
      q.limit.isSome ∧ q.offset = none)
  topWord : d.name = "sqlserver" →
    ("TOP" ∈ q.writtenWords d o ↔ q.limit.isSome ∧ q.offset = none)
  offsetWord : d.name = "sqlserver" → ("OFFSET" ∈ q.writtenWords d o ↔ q.offset.isSome)
  /-- There an offset comes directly behind an ordering of the same block. -/
  ordered : d.name = "sqlserver" → "OFFSET" ∈ q.writtenWords d o →
    ["ORDER", "BY", "OFFSET"] <:+: q.writtenWords d o

namespace Select

theorem writtenWords_eq (hd : d.BuiltIn) (o : Options) (q : Select) :
    q.writtenWords d o = q.clauseWords d :=
  (q.writes_tokens hd o isQuiet_none).clauseWords_eq

theorem mem_writtenWords {q : Select} {w : String} (keyword : w ∈ clauseKeywords)
    (written : Item.token (.word w) ∈ items (q.tokens d o)) : w ∈ q.writtenWords d o :=
  mem_clauseWordsFrom keyword
    (List.mem_flatMap.2 ⟨_, written, by simp [Item.words, keyword]⟩) ""

/-- The paging words of a block are those of its two paging clauses. -/
theorem pagingWord_mem_iff {w : String} (h : w ∈ pagingWords) {q : Select} :
    w ∈ q.clauseWords d ↔ w ∈ d.leadingWords q.limit.isSome q.offset.isSome ∨
      w ∈ d.trailingWords q.limit.isSome q.offset.isSome := by
  have others : ∀ w ∈ pagingWords, w ∉ ["SELECT", "DISTINCT"] := by decide
  have none := others w h
  simp only [List.mem_cons, List.not_mem_nil, or_false, not_or] at none
  simp only [clauseWords, List.mem_append, List.mem_ite_nil_right, List.mem_singleton, none,
    and_false, false_or, pagingWord_not_mem_inner q w h, or_false]

section SqlServer

variable {q : Select} (name : d.name = "sqlserver")
include name

theorem top_mem_iff : "TOP" ∈ q.clauseWords d ↔ q.limit.isSome ∧ q.offset = none := by
  rw [pagingWord_mem_iff (by decide)]
  cases q.limit <;> cases q.offset <;>
    simp [Dialect.leadingWords, Dialect.trailingWords, name]

theorem offset_mem_iff : "OFFSET" ∈ q.clauseWords d ↔ q.offset.isSome := by
  rw [pagingWord_mem_iff (by decide)]
  cases q.limit <;> cases q.offset <;>
    simp [Dialect.leadingWords, Dialect.trailingWords, name]

theorem ordering_of_offset (offset : q.offset.isSome = true) :
    ["ORDER", "BY", "OFFSET"] <:+: q.clauseWords d := by
  have ordered : ¬(q.orderings.isEmpty = true ∧ ¬(d.name = "sqlserver" ∧ q.offset.isSome = true)) :=
    fun h => h.2 ⟨name, offset⟩
  have inner : ∃ front, q.innerWords d = front ++ ["ORDER", "BY"] :=
    ⟨_, by rw [innerWords, if_neg ordered]⟩
  have trailing : ∃ back, d.trailingWords q.limit.isSome q.offset.isSome = "OFFSET" :: back := by
    rw [offset]
    cases q.limit <;> simp [Dialect.trailingWords, name]
  have words : ∃ lead, q.clauseWords d = lead ++ q.innerWords d ++
      d.trailingWords q.limit.isSome q.offset.isSome := ⟨_, rfl⟩
  obtain ⟨front, inner⟩ := inner
  obtain ⟨back, trailing⟩ := trailing
  obtain ⟨lead, words⟩ := words
  rw [words, inner, trailing]
  exact ⟨lead ++ front, back, by simp⟩

end SqlServer

section Items

variable (hd : d.BuiltIn) (o : Options) (q : Select)
include hd

/-- The items of a block, with the limit and the offset around a part that has no paging words. -/
theorem exists_items : ∃ middle, IsPart middle ∧
    items (q.tokens d o) = wordItems (["SELECT"] ++ if q.distinct then ["DISTINCT"] else []) ++
      items (d.frontTokens (q.limit.map (Expr.tokens d o)) (q.offset.map (Expr.tokens d o)) ++
        middle ++ d.backTokens (q.limit.map (Expr.tokens d o)) (q.offset.map (Expr.tokens d o))) := by
  obtain ⟨middle, inner, split⟩ := exists_tokens_split hd o isQuiet_none q
  have written := split q.limit q.offset rfl
  rw [q.withPaging_self] at written
  refine ⟨middle, .ofWrites inner (pagingWord_not_mem_inner q), ?_⟩
  rw [written, ← items_lead]
  simp only [List.append_assoc]

theorem exists_pagingForm : ∃ rest, pagingPhrases (items (q.tokens d o)) =
    d.pagingForm (q.limit.map (Expr.tokens d o)) (q.offset.map (Expr.tokens d o)) rest := by
  obtain ⟨middle, part, eq⟩ := q.exists_items hd o
  have lead : IsUnpaged (wordItems (["SELECT"] ++ if q.distinct then ["DISTINCT"] else [])) := by
    cases q.distinct <;> exact isUnpaged_words (by decide)
  refine ⟨items middle, ?_⟩
  rw [eq, pagingPhrases_unpaged lead]
  exact Dialect.pagingPhrases_split hd (isPart_option hd o _) (isPart_option hd o _) part

theorem exists_top (name : d.name = "sqlserver") (limited : q.limit.isSome = true)
    (unset : q.offset = none) : ∃ rest, items (q.tokens d o) =
      wordItems (["SELECT"] ++ (if q.distinct then ["DISTINCT"] else []) ++ ["TOP"]) ++ rest := by
  obtain ⟨middle, -, eq⟩ := q.exists_items hd o
  obtain ⟨l, limit⟩ := Option.isSome_iff_exists.1 limited
  have closes := (isPart_option hd o q.limit (l.tokens d o) (by rw [limit]; rfl)).closes
  cases hd with
  | sqlServer schema =>
    rw [limit, unset, Option.map_some, Option.map_none, List.append_assoc,
      Dialect.items_top schema closes, ← List.append_assoc, wordItems, wordItems,
      ← List.map_append] at eq
    exact ⟨_, eq⟩
  | _ => exact absurd name (by decide)

end Items

theorem pagesIn (hd : d.BuiltIn) {q : Select} (sound : q.IsSound) : q.PagesIn d o := by
  obtain ⟨middle, -, split⟩ := exists_tokens_split hd o isQuiet_none q
  obtain ⟨rest, form⟩ := q.exists_pagingForm hd o
  have counted {e? : Option Expr} (h : ∀ e ∈ e?, e.MayCountRows)
      (constant : ∀ e ∈ e?, ∃ l, e = .literal l) : ∀ e ∈ e?, e.rowCount?.isSome = true := by
    intro e he
    obtain ⟨l, rfl⟩ := constant e he
    exact Value.rowCount?_isSome_iff.2 (h _ he)
  have topWord (name : d.name = "sqlserver") :
      "TOP" ∈ q.writtenWords d o ↔ q.limit.isSome ∧ q.offset = none := by
    rw [q.writtenWords_eq hd, top_mem_iff name]
  have offsetWord (name : d.name = "sqlserver") :
      "OFFSET" ∈ q.writtenWords d o ↔ q.offset.isSome := by
    rw [q.writtenWords_eq hd, offset_mem_iff name]
  refine ⟨⟨rest, form⟩, ?missing, ⟨middle, split⟩, fun inlined hl hk => ?window,
    fun name => ⟨?top, fun h => q.exists_top hd o name h.1 h.2⟩, topWord, offsetWord,
    fun name offset => ?ordered⟩
  case missing =>
    rw [form, Dialect.pagingForm_eq_nil_iff, Option.map_eq_none_iff, Option.map_eq_none_iff]
  case window =>
    rw [form]
    exact Dialect.window?_pagingForm hd inlined (counted sound.limit hl)
      (counted sound.offset hk) rest
  case top =>
    rintro ⟨rest, eq⟩
    exact (topWord name).1 (mem_writtenWords (by decide) (by simp [eq, wordItems]))
  case ordered =>
    rw [q.writtenWords_eq hd]
    exact ordering_of_offset name ((offsetWord name).1 offset)

end Select

/-- Every block of a compiled query stands in its text, with the paging of the dialect. -/
theorem Select.compile_pages (hd : d.BuiltIn) {s : Select} {out : Command}
    (h : s.compile d o = .ok out) {q : Select} (contained : (Node.block s).Contains (.block q)) :
    (∃ before after, s.tokens d o = before ++ q.tokens d o ++ after ∧
      out.sql = d.textOf 1 before ++ d.textOf (Token.after 1 before) (q.tokens d o) ++
        d.textOf (Token.after 1 (before ++ q.tokens d o)) after) ∧
    q.PagesIn d o :=
  ⟨text_contained hd h contained,
    pagesIn hd ((exists_compile_iff hd o s).1 ⟨out, h⟩ _ contained)⟩

/-- The names of three customers. -/
def threeNames : Select where
  projections := [⟨.column ⟨"name", none, .text, false⟩, ""⟩]
  distinct := true
  sources := [.table "customers" none none]
  limit := some (.literal ⟨.int 3, .int⟩)

/-- Three names but the first. -/
def otherNames : Select where
  projections := [⟨.column ⟨"name", some "c", .text, false⟩, ""⟩]
  sources := [.derived threeNames "c"]
  offset := some (.literal ⟨.int 1, .int⟩)

theorem compile_pages_otherNames :
    (∃ out, otherNames.compile (.sqlServer "dbo") {} = .ok out ∧
      out.sql = "SELECT [c].[name] FROM (SELECT DISTINCT TOP(3) [name] FROM [customers]) AS [c]" ++
        " ORDER BY (SELECT 1) OFFSET 1 ROWS") ∧
    threeNames.PagesIn (.sqlServer "dbo") {} ∧ otherNames.PagesIn .mysql {} ∧
    otherNames.window.rows ["Ada", "Bo", "Cy"] = ["Bo", "Cy"] := by
  have inner : (Node.block otherNames).Contains (.block threeNames) :=
    .part (m := .source (.derived threeNames "c")) (by simp [Node.parts, otherNames])
      (.part List.mem_cons_self (.self _))
  exact ⟨⟨_, rfl, by decide⟩, (Select.compile_pages (.sqlServer "dbo") rfl inner).2,
    (Select.compile_pages .mysql rfl (.self _)).2, rfl⟩

end SelectCompiler
