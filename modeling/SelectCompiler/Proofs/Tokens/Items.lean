import SelectCompiler.Proofs.Tokens.Phrase

/-!
What stands outside of parentheses. Main statement: a phrase is divided into items on its own, and
in parentheses it is a single item.
-/

namespace SelectCompiler

/-- A token outside of parentheses, or what a pair of them encloses. -/
inductive Item where
  | token (t : Token)
  | group (content : List Token)
deriving DecidableEq

namespace Token

/-- The items of tokens, so many parentheses being open with this content so far. Spaces between
items are left out. -/
def itemsFrom : (opened : Nat) → (content : List Token) → List Token → List Item
  | _, _, [] => []
  | 0, content, t :: ts =>
    if t = .symbol "(" then itemsFrom 1 [] ts
    else if t = .space then itemsFrom 0 content ts
    else .token t :: itemsFrom 0 content ts
  | k + 1, content, t :: ts =>
    if t = .symbol "(" then itemsFrom (k + 2) (content ++ [t]) ts
    else if t = .symbol ")" then
      if k = 0 then .group content :: itemsFrom 0 [] ts else itemsFrom k (content ++ [t]) ts
    else itemsFrom (k + 1) (content ++ [t]) ts

def items (ts : List Token) : List Item := itemsFrom 0 [] ts

/-- Neither a parenthesis nor a space. -/
def isPlain (t : Token) : Bool := t != .symbol "(" && t != .symbol ")" && t != .space

/-- Parentheses that are opened are closed again, within and without others. -/
structure Closes (ts : List Token) : Prop where
  within : ∀ k content rest,
    itemsFrom (k + 1) content (ts ++ rest) = itemsFrom (k + 1) (content ++ ts) rest
  apart : ∀ rest, items (ts ++ rest) = items ts ++ items rest

@[simp] theorem items_nil : items [] = [] := rfl

@[simp] theorem items_space (ts : List Token) : items (.space :: ts) = items ts := rfl

theorem items_plain {t : Token} (h : t.isPlain = true) (ts : List Token) :
    items (t :: ts) = .token t :: items ts := by
  simp only [isPlain, Bool.and_eq_true, bne_iff_ne] at h
  rw [items, itemsFrom, if_neg h.1.1, if_neg h.2, items]

theorem items_word (w : String) (ts : List Token) :
    items (.word w :: ts) = .token (.word w) :: items ts := items_plain rfl ts

@[simp] theorem items_words (ws : List String) :
    items (words ws) = ws.map fun w => .token (.word w) := by
  induction ws with
  | nil => rfl
  | cons w ws ih =>
    cases ws with
    | nil => rfl
    | cons v ws =>
      have split : words (w :: v :: ws) = .word w :: .space :: words (v :: ws) := by
        simp [words, List.intercalate_cons_cons]
      rw [split, items_word, items_space, ih]
      rfl

theorem mem_of_mem_itemsFrom {t : Token} {opened : Nat} {content ts : List Token}
    (h : Item.token t ∈ itemsFrom opened content ts) : t ∈ ts := by
  induction ts generalizing opened content with
  | nil => cases opened <;> cases h
  | cons u ts ih =>
    have rest {k : Nat} {c : List Token} (h : Item.token t ∈ itemsFrom k c ts) : t ∈ u :: ts :=
      List.mem_cons_of_mem u (ih h)
    cases opened with
    | zero =>
      rw [itemsFrom] at h
      split at h
      · exact rest h
      · split at h
        · exact rest h
        · rcases List.mem_cons.1 h with eq | h
          · exact Item.token.inj eq ▸ List.mem_cons_self
          · exact rest h
    | succ k =>
      rw [itemsFrom] at h
      split at h
      · exact rest h
      · split at h
        · split at h
          · exact rest ((List.mem_cons.1 h).resolve_left nofun)
          · exact rest h
        · exact rest h

theorem mem_of_mem_items {t : Token} {ts : List Token} (h : Item.token t ∈ items ts) : t ∈ ts :=
  mem_of_mem_itemsFrom h

namespace Closes

theorem nil : Closes [] where
  within _ _ _ := by simp
  apart _ := rfl

theorem append {a b : List Token} (ha : Closes a) (hb : Closes b) : Closes (a ++ b) where
  within k content rest := by
    rw [List.append_assoc, ha.within, hb.within, List.append_assoc]
  apart rest := by rw [List.append_assoc, ha.apart, hb.apart, ha.apart, List.append_assoc]

theorem space : Closes [.space] where
  within k content rest := by rw [List.singleton_append, itemsFrom, if_neg nofun, if_neg nofun]
  apart rest := rfl

theorem plain {t : Token} (h : t.isPlain = true) : Closes [t] where
  within k content rest := by
    simp only [isPlain, Bool.and_eq_true, bne_iff_ne] at h
    rw [List.singleton_append, itemsFrom, if_neg h.1.1, if_neg h.1.2]
  apart rest := by rw [List.singleton_append, items_plain h, items_plain h]; rfl

/-- What is enclosed ends with the parenthesis that encloses it. -/
theorem items_enclosed {ts : List Token} (h : Closes ts) (rest : List Token) :
    items (enclosed ts ++ rest) = .group ts :: items rest := by
  have eq : enclosed ts ++ rest = .symbol "(" :: (ts ++ Token.symbol ")" :: rest) := by
    simp [enclosed]
  rw [eq, items, itemsFrom, if_pos rfl, h.within, itemsFrom, if_neg (by decide), if_pos rfl,
    if_pos rfl]
  rfl

theorem enclosed {ts : List Token} (h : Closes ts) : Closes (enclosed ts) where
  within k content rest := by
    have eq : Token.enclosed ts ++ rest = .symbol "(" :: (ts ++ Token.symbol ")" :: rest) := by
      simp [Token.enclosed]
    rw [eq, itemsFrom, if_pos rfl, h.within, itemsFrom, if_neg (by decide), if_pos rfl,
      if_neg (Nat.succ_ne_zero k)]
    simp [Token.enclosed]
  apart rest := by
    have alone := h.items_enclosed []
    rw [List.append_nil] at alone
    rw [h.items_enclosed, alone]
    rfl

end Closes

theorem items_group {ts : List Token} (h : Closes ts) : items (enclosed ts) = [.group ts] := by
  have alone := h.items_enclosed []
  rwa [List.append_nil] at alone

theorem Closes.words (ws : List String) : Closes (words ws) := by
  induction ws with
  | nil => exact .nil
  | cons w ws ih =>
    have first : Closes [.word w] := .plain rfl
    cases ws with
    | nil => simpa [Token.words] using first
    | cons v ws =>
      have := first.append (Closes.space.append ih)
      simpa [Token.words, List.intercalate_cons_cons] using this

theorem Closes.clause (ws : List String) : Closes (clause ws) :=
  (Closes.space.append (.words ws)).append .space

end Token

open Token (Closes)

theorem Dialect.Solid.isPlain {d : Dialect} {t : Token} (h : d.Solid t) : t.isPlain = true := by
  cases h <;> rfl

/-- A phrase is divided into items on its own. -/
theorem Dialect.PhraseOf.closes {d : Dialect} {ok : List Token → Prop} {ts : List Token}
    (h : d.PhraseOf ok ts) : Closes ts := by
  have mark {s : String} (h : (Token.symbol s).isPlain = true) : Closes [.symbol s] := .plain h
  have operator : ∀ s ∈ operatorSpellings, (Token.symbol s).isPlain = true := by decide
  induction h with
  | solid h => exact .plain h.isPlain
  | operator h => exact mark (operator _ h)
  | owned owner h ih => exact (Closes.plain rfl).append ((mark (by decide)).append ih)
  | negated h operand ih => exact (mark (by decide)).append ih
  | empty => exact Closes.nil.enclosed
  | enclosed h ih => exact ih.enclosed
  | called h arguments ih => exact (Closes.plain h.isPlain).append ih
  | spaced ha hb iha ihb => exact iha.append (Closes.space.append ihb)
  | listed ha hb iha ihb =>
    exact iha.append ((mark (by decide)).append (Closes.space.append ihb))

end SelectCompiler
