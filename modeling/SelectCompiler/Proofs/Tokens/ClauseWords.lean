import Mathlib.Data.List.Basic
import SelectCompiler.Proofs.Tokens.Items

/-!
The clause words among the items of a written query. Main statement: lists of tokens that show their
clause words on their own show them one after the other when they are put together, and what is
enclosed shows none.
-/

namespace SelectCompiler

open Token (Closes clause words enclosed enclosedIf listed qualified optionalClause listClause)

/-! ### Words -/

/-- The words that tell the clauses of a block apart. -/
def clauseKeywords : List String :=
  ["SELECT", "DISTINCT", "TOP", "FROM", "JOIN", "APPLY", "WHERE", "GROUP", "HAVING", "ORDER",
    "LIMIT", "OFFSET", "FETCH"]

/-- The words that belong to a clause next to one of its keywords, and to none elsewhere. -/
def companionWords : List String := ["INNER", "LEFT", "CROSS", "OUTER", "BY"]

/-- The clause words among words, with the word before them. What stands before `JOIN` or `APPLY`
counts, and so does `BY` behind `GROUP` or `ORDER`. -/
def clauseWordsFrom : (before : String) → List String → List String
  | _, [] => []
  | before, w :: ws =>
    (if w = "JOIN" ∨ w = "APPLY" then [before, w]
      else if w ∈ clauseKeywords ∨ w = "BY" ∧ (before = "GROUP" ∨ before = "ORDER") then [w]
      else []) ++ clauseWordsFrom w ws

def clauseWordsOf (ws : List String) : List String := clauseWordsFrom "" ws

/-- The words show these clause words wherever they stand, but directly behind `GROUP` or `ORDER`. -/
def Shows (ws shown : List String) : Prop :=
  ∀ before rest, before ∉ ["GROUP", "ORDER"] → ∃ last, last ∉ ["GROUP", "ORDER"] ∧
    clauseWordsFrom before (ws ++ rest) = shown ++ clauseWordsFrom last rest

namespace Shows

theorem nil : Shows [] [] := fun before _ h => ⟨before, h, rfl⟩

theorem append {ws vs shown others : List String} (h : Shows ws shown) (h' : Shows vs others) :
    Shows (ws ++ vs) (shown ++ others) := by
  intro before rest hb
  obtain ⟨middle, hm, first⟩ := h before (vs ++ rest) hb
  obtain ⟨last, hl, second⟩ := h' middle rest hm
  exact ⟨last, hl, by rw [List.append_assoc, first, second, List.append_assoc]⟩

theorem other {w : String} (h : w ∉ clauseKeywords) : Shows [w] [] := by
  intro before rest hb
  have join : ¬(w = "JOIN" ∨ w = "APPLY") := by
    rintro (rfl | rfl) <;> exact h (by decide)
  have last : w ∉ ["GROUP", "ORDER"] := fun mem => by
    simp only [List.mem_cons, List.not_mem_nil, or_false] at mem
    rcases mem with rfl | rfl <;> exact h (by decide)
  have free : ¬(w ∈ clauseKeywords ∨ w = "BY" ∧ (before = "GROUP" ∨ before = "ORDER")) := by
    rintro (keyword | ⟨-, behind⟩)
    · exact h keyword
    · exact hb (by simpa using behind)
  exact ⟨w, last, by rw [List.singleton_append, clauseWordsFrom, if_neg join, if_neg free]⟩

/-- Words without keywords show nothing. -/
theorem quiet {ws : List String} (h : ∀ w ∈ ws, w ∉ clauseKeywords) : Shows ws [] := by
  induction ws with
  | nil => exact nil
  | cons w ws ih =>
    exact (other (h w List.mem_cons_self)).append (ih fun w hw => h w (List.mem_cons_of_mem _ hw))

theorem keyword {w : String} (h : w ∈ clauseKeywords)
    (alone : w ∉ ["JOIN", "APPLY", "GROUP", "ORDER"]) : Shows [w] [w] := by
  intro before rest hb
  simp only [List.mem_cons, List.not_mem_nil, or_false, not_or] at alone
  refine ⟨w, by simp [alone], ?_⟩
  rw [List.singleton_append, clauseWordsFrom, if_neg (by simp [alone]), if_pos (.inl h)]

theorem join (kind : JoinKind) : Shows (joinWords kind) (joinWords kind) := by
  intro before rest hb
  cases kind with
  | crossApply => exact ⟨"APPLY", by decide, by simp [joinWords, clauseWordsFrom, clauseKeywords]⟩
  | outerApply => exact ⟨"APPLY", by decide, by simp [joinWords, clauseWordsFrom, clauseKeywords]⟩
  | _ => exact ⟨"JOIN", by decide, by simp [joinWords, clauseWordsFrom, clauseKeywords]⟩

theorem withBy {w : String} (h : w = "GROUP" ∨ w = "ORDER") : Shows [w, "BY"] [w, "BY"] := by
  intro before rest hb
  refine ⟨"BY", by decide, ?_⟩
  rcases h with rfl | rfl <;> simp [clauseWordsFrom, clauseKeywords]

theorem clauseWordsOf_eq {ws shown : List String} (h : Shows ws shown) :
    clauseWordsOf ws = shown := by
  obtain ⟨last, -, eq⟩ := h "" [] (by decide)
  simpa [clauseWordsOf, clauseWordsFrom] using eq

end Shows

/-- No keyword is lost. -/
theorem mem_clauseWordsFrom {w : String} (h : w ∈ clauseKeywords) {ws : List String} (mem : w ∈ ws)
    (before : String) : w ∈ clauseWordsFrom before ws := by
  induction ws generalizing before with
  | nil => cases mem
  | cons v ws ih =>
    rw [clauseWordsFrom]
    rcases List.mem_cons.1 mem with rfl | mem
    · refine List.mem_append_left _ ?_
      split
      · simp
      · rw [if_pos (.inl h)]
        exact List.mem_singleton_self _
    · exact List.mem_append_right _ (ih mem v)

/-! ### Items -/

/-- The words among an item that clauses are made of; `raw` yields those of a raw text. -/
def Item.words (raw : String → List String) : Item → List String
  | .token (.word w) => if w ∈ clauseKeywords ++ companionWords then [w] else []
  | .token (.verbatim text) => raw text
  | _ => []

def Token.clauseWords (raw : String → List String) (ts : List Token) : List String :=
  clauseWordsOf ((items ts).flatMap (Item.words raw))

variable {raw : String → List String}

/-- Tokens that close what they open and show these clause words. -/
structure Writes (raw : String → List String) (ts : List Token) (shown : List String) : Prop where
  closes : Closes ts
  shows : Shows ((Token.items ts).flatMap (Item.words raw)) shown

namespace Writes

theorem nil : Writes raw [] [] := ⟨.nil, .nil⟩

theorem append {a b : List Token} {x y : List String} (ha : Writes raw a x) (hb : Writes raw b y) :
    Writes raw (a ++ b) (x ++ y) where
  closes := ha.closes.append hb.closes
  shows := by
    rw [ha.closes.apart, List.flatMap_append]
    exact ha.shows.append hb.shows

/-- Lists that show nothing show nothing together. -/
theorem silent {a b : List Token} (ha : Writes raw a []) (hb : Writes raw b []) :
    Writes raw (a ++ b) [] := ha.append hb

theorem space : Writes raw [.space] [] := ⟨.space, .nil⟩

theorem token {t : Token} {shown : List String} (h : t.isPlain = true)
    (shows : Shows (Item.words raw (.token t)) shown) : Writes raw [t] shown where
  closes := .plain h
  shows := by
    rw [Token.items_plain h]
    simpa using shows

theorem enclosed {ts : List Token} (h : Closes ts) : Writes raw (enclosed ts) [] where
  closes := h.enclosed
  shows := by
    rw [Token.items_group h]
    exact .nil

theorem flatten {α : Type} {xs : List α} {tokens : α → List Token} {shown : α → List String}
    (h : ∀ x ∈ xs, Writes raw (tokens x) (shown x)) :
    Writes raw (xs.map tokens).flatten (xs.flatMap shown) := by
  induction xs with
  | nil => exact nil
  | cons x xs ih =>
    exact (h x List.mem_cons_self).append (ih fun x hx => h x (List.mem_cons_of_mem _ hx))

theorem symbol {s : String} (h : (Token.symbol s).isPlain = true) : Writes raw [.symbol s] [] :=
  token h .nil

theorem listed {tss : List (List Token)} (h : ∀ ts ∈ tss, Writes raw ts []) :
    Writes raw (listed tss) [] := by
  induction tss with
  | nil => exact nil
  | cons ts tss ih =>
    have first := h ts List.mem_cons_self
    cases tss with
    | nil => simpa [Token.listed] using first
    | cons us tss =>
      have rest := ih fun ts hts => h ts (List.mem_cons_of_mem _ hts)
      have comma : Writes raw [.symbol ",", .space] [] := (symbol (by decide)).silent space
      simpa [Token.listed, List.intercalate_cons_cons] using (first.silent comma).silent rest

/-- The keywords of a clause, one after the other. -/
theorem words {ws shown : List String} (counted : ∀ w ∈ ws, w ∈ clauseKeywords ++ companionWords)
    (shows : Shows ws shown) : Writes raw (words ws) shown where
  closes := .words ws
  shows := by
    have all : (ws.map fun w => Item.token (.word w)).flatMap (Item.words raw) = ws := by
      rw [List.flatMap_map]
      calc ws.flatMap (fun w => Item.words raw (.token (.word w)))
          = ws.flatMap (fun w => [w]) := List.flatMap_congr fun w hw => if_pos (counted w hw)
        _ = ws := List.flatMap_singleton' ws
    rw [Token.items_words, all]
    exact shows

theorem word {w : String} (h : w ∉ clauseKeywords) : Writes raw [.word w] [] := by
  refine token rfl ?_
  rw [Item.words]
  split
  · exact .other h
  · exact .nil

/-- Words that are no keywords of clauses. -/
theorem otherWords {ws : List String} (h : ∀ w ∈ ws, w ∉ clauseKeywords) :
    Writes raw (Token.words ws) [] where
  closes := .words ws
  shows := by
    rw [Token.items_words, List.flatMap_map]
    refine .quiet fun w hw => ?_
    obtain ⟨v, hv, hw⟩ := List.mem_flatMap.1 hw
    rw [Item.words] at hw
    split at hw
    · exact List.mem_singleton.1 hw ▸ h v hv
    · cases hw

theorem clause {ws shown : List String} (h : Writes raw (Token.words ws) shown) :
    Writes raw (clause ws) shown := by
  have := (space.append h).append space
  simpa [Token.clause] using this

theorem optionalClause {ws shown : List String} (h : Writes raw (Token.words ws) shown)
    {content : Option (List Token)} (hc : ∀ ts ∈ content, Writes raw ts []) :
    Writes raw (optionalClause ws content) (if content.isSome then shown else []) := by
  cases content with
  | none => exact nil
  | some ts => simpa [Token.optionalClause] using h.clause.append (hc ts rfl)

theorem listClause {ws shown : List String} (h : Writes raw (Token.words ws) shown)
    {tss : List (List Token)} (hi : ∀ ts ∈ tss, Writes raw ts []) :
    Writes raw (listClause ws tss) (if tss.isEmpty then [] else shown) := by
  cases tss with
  | nil => exact nil
  | cons ts tss => simpa [Token.listClause] using h.clause.append (listed hi)

/-- What the tokens show is all there is. -/
theorem clauseWords_eq {ts : List Token} {shown : List String} (h : Writes raw ts shown) :
    Token.clauseWords raw ts = shown := h.shows.clauseWordsOf_eq

end Writes

end SelectCompiler
