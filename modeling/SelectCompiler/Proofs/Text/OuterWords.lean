import SelectCompiler.Proofs.Text.Outside
import SelectCompiler.Proofs.Tokens.ClauseWords

/-!
The clause words of a text: those of its lexemes that stand outside of quotes and parentheses. Main
statement: the text of a phrase has the clause words of its items.
-/

namespace SelectCompiler

open Token (items)

namespace Lexeme

/-- The clause word, or the companion of one, that a lexeme is in either case of its letters. -/
def clauseWord? : Lexeme → Option String
  | word w =>
    let upper := String.ofList (w.toList.map Char.toUpper)
    if upper ∈ clauseKeywords ++ companionWords then some upper else none
  | keyword .select => some "SELECT"
  | _ => none

def outerWords (ls : List Lexeme) : List String := (outside 0 ls).filterMap clauseWord?

end Lexeme

open Lexeme (outside outerWords)

/-- The clause words that a dialect reads in a text, outside of quotes and parentheses. -/
def Dialect.clauseWords? (d : Dialect) (text : String) : Option (List String) :=
  (d.lex text).map fun ls => clauseWordsOf (outerWords ls)

/-- A raw text without a clause keyword outside of its parentheses. -/
def IsClauseless (text : String) : Prop :=
  ∀ w ∈ outerWords (lexemesOf (text.toList.map .plain)), w ∉ clauseKeywords

instance (text : String) : Decidable (IsClauseless text) :=
  inferInstanceAs (Decidable (∀ w ∈ outerWords (lexemesOf (text.toList.map .plain)), _))

/-- The words of a raw text, but for keywords. -/
def rawWords (text : String) : List String :=
  (outerWords (lexemesOf (text.toList.map .plain))).filter (· ∉ clauseKeywords)

theorem rawWords_eq {text : String} (h : IsClauseless text) :
    rawWords text = outerWords (lexemesOf (text.toList.map .plain)) :=
  List.filter_eq_self.2 fun w hw => by simpa using h w hw

def Token.IsClauseless : Token → Prop
  | .verbatim text => SelectCompiler.IsClauseless text
  | _ => True

namespace Dialect

variable {d : Dialect}

theorem picks_clauseWord (hd : d.BuiltIn) : d.Picks Lexeme.clauseWord? where
  mark l h := by cases l <;> first | rfl | cases h
  name n := rfl
  text s := rfl
  dot := rfl
  unlettered c cs h := if_neg (Lexeme.toUpper_notMem (by decide) h cs)
  constants := by decide
  margins := hd.of_databases (by decide) fun _ h => h

theorem outerWords_word (hd : d.BuiltIn) : ∀ w ∈ keywords ++ d.typeWords,
    outerWords (lexemesOf (w.toList.map .plain)) = Item.words rawWords (.token (.word w)) :=
  List.forall_mem_append.2 ⟨by decide +kernel, hd.of_databases (by decide +kernel) fun _ h => h⟩

/-- What is picked of the tokens of a phrase are their clause words. -/
theorem picked_clauseWord (hd : d.BuiltIn) {ts : List Token} (h : d.Phrase ts)
    (clauseless : ∀ t ∈ ts, t.IsClauseless) :
    (items ts).flatMap (Item.picked Lexeme.clauseWord?) =
      (items ts).flatMap (Item.words rawWords) := by
  have marked : ∀ s ∈ marks, Item.picked Lexeme.clauseWord? (.token (.symbol s)) = [] := by decide
  have tokens : ∀ t ∈ ts, t.IsClauseless →
      Item.picked Lexeme.clauseWord? (.token t) = Item.words rawWords (.token t) := by
    refine h.forall_mem (fun _ => rfl) ?_ fun s hs _ => marked s hs
    intro t solid clauseless
    cases solid with
    | word hw => exact outerWords_word hd _ hw
    | verbatim text => exact (rawWords_eq clauseless).symm
    | _ => rfl
  refine List.flatMap_congr fun item mem => ?_
  cases item with
  | token t =>
    have mem := Token.mem_of_mem_items mem
    exact tokens t mem (clauseless t mem)
  | group content => rfl

/-- Without fragments a text has the clause words of its tokens. -/
theorem clauseWords?_phrase (hd : d.BuiltIn) {ts : List Token} (h : d.Phrase ts)
    (tame : ∀ t ∈ ts, t.IsTame ∧ t.IsClauseless) (n : Nat) :
    d.clauseWords? (String.join (d.texts n ts)) = some (Token.clauseWords rawWords ts) := by
  have words := (picks_clauseWord hd).phrase hd h (fun t ht => (tame t ht).1) n isSeparated_nil
  rw [List.append_nil, lexemesOf_nil, Lexeme.picked_nil, List.append_nil,
    picked_clauseWord hd h fun t ht => (tame t ht).2] at words
  rw [clauseWords?, lex_tame hd h (fun t ht => (tame t ht).1), Option.map_some, Token.clauseWords]
  exact congrArg (fun ws => some (clauseWordsOf ws)) words

end Dialect

end SelectCompiler
