import SelectCompiler.Proofs.Tokens.TreeClauses

/-!
Paging forms among the items of a block. Main statement: a block in three parts, with its limit and
its offset in front of the middle one and behind it, has the paging form of its dialect and no other.
-/

namespace SelectCompiler

open Token (Closes clause items optionalClause words)

/-! ### Paging forms -/

def pagingWords : List String := ["TOP", "LIMIT", "OFFSET", "FETCH"]

def Item.pagingWord? : Item → Option String
  | .token (.word w) => if w ∈ pagingWords then some w else none
  | _ => none

/-- Every paging word among items, with what stands between it and the next one. -/
def pagingPhrases : List Item → List (String × List Item)
  | [] => []
  | x :: xs =>
    match x.pagingWord? with
    | some w => (w, xs.takeWhile fun y => y.pagingWord?.isNone) :: pagingPhrases xs
    | none => pagingPhrases xs

def wordItems (ws : List String) : List Item := ws.map fun w => .token (.word w)

/-- The paging form of a written limit and offset; `rest` is what stands behind a limit in front. -/
def Dialect.pagingForm (d : Dialect) (limit offset : Option (List Token)) (rest : List Item) :
    List (String × List Item) :=
  let number (text : String) : Item := .token (.constant (.bare text))
  match limit, offset with
  | none, none => []
  | some l, none =>
    if d.name = "sqlserver" then [("TOP", .group l :: rest)]
    else if d.name = "oracle" then
      [("FETCH", wordItems ["FIRST"] ++ items l ++ wordItems ["ROWS", "ONLY"])]
    else [("LIMIT", items l)]
  | none, some k =>
    if d.name = "postgres" then [("OFFSET", items k)]
    else if d.name = "mysql" then
      [("LIMIT", [number "18446744073709551615"]), ("OFFSET", items k)]
    else if d.name = "sqlite" then [("LIMIT", [number "-1"]), ("OFFSET", items k)]
    else [("OFFSET", items k ++ wordItems ["ROWS"])]
  | some l, some k =>
    if d.name = "postgres" then [("OFFSET", items k), ("LIMIT", items l)]
    else if d.name = "mysql" ∨ d.name = "sqlite" then [("LIMIT", items l), ("OFFSET", items k)]
    else
      [("OFFSET", items k ++ wordItems ["ROWS"]),
        ("FETCH", wordItems ["NEXT"] ++ items l ++ wordItems ["ROWS", "ONLY"])]

/-! ### Finding the form -/

variable {d : Dialect}

/-- Items without a paging word. -/
def IsUnpaged (xs : List Item) : Prop := ∀ x ∈ xs, x.pagingWord? = none

theorem IsUnpaged.append {xs ys : List Item} (hx : IsUnpaged xs) (hy : IsUnpaged ys) :
    IsUnpaged (xs ++ ys) := List.forall_mem_append.2 ⟨hx, hy⟩

theorem isUnpaged_words {ws : List String} (h : ∀ w ∈ ws, w ∉ pagingWords) :
    IsUnpaged (wordItems ws) :=
  List.forall_mem_map.2 fun w hw => if_neg (h w hw)

theorem pagingPhrases_unpaged {xs : List Item} (h : IsUnpaged xs) (ys : List Item) :
    pagingPhrases (xs ++ ys) = pagingPhrases ys := by
  induction xs with
  | nil => rfl
  | cons x xs ih =>
    obtain ⟨first, rest⟩ := List.forall_mem_cons.1 h
    rw [List.cons_append, pagingPhrases, first, ih rest]

theorem pagingPhrases_word {w : String} (h : w ∈ pagingWords) {xs : List Item}
    (unpaged : IsUnpaged xs) {ys : List Item}
    (next : ∀ y ∈ ys.head?, y.pagingWord?.isSome = true) :
    pagingPhrases (wordItems [w] ++ xs ++ ys) = (w, xs) :: pagingPhrases ys := by
  have found : (Item.token (.word w)).pagingWord? = some w := if_pos h
  have within : (xs ++ ys).takeWhile (fun y => y.pagingWord?.isNone) = xs := by
    rw [List.takeWhile_append_of_pos fun x hx => by rw [unpaged x hx]; rfl]
    cases ys with
    | nil => simp
    | cons y ys =>
      have some := next y rfl
      rw [List.takeWhile_cons_of_neg (by simpa [Option.isSome_iff_ne_none] using some),
        List.append_nil]
  rw [List.append_assoc]
  show pagingPhrases (.token (.word w) :: (xs ++ ys)) = _
  rw [pagingPhrases, found]
  simp only [within, pagingPhrases_unpaged unpaged]

/-- Where no clause word is a paging word, no item is. -/
theorem Writes.isUnpaged {raw : String → List String} {ts : List Token} {shown : List String}
    (h : Writes raw ts shown) (none : ∀ w ∈ pagingWords, w ∉ shown) : IsUnpaged (items ts) := by
  intro x hx
  cases found : x.pagingWord? with
  | none => rfl
  | some w =>
    have word : x = .token (.word w) ∧ w ∈ pagingWords := by
      unfold Item.pagingWord? at found
      split at found
      · split at found
        · cases found
          exact ⟨rfl, ‹_›⟩
        · cases found
      · cases found
    obtain ⟨rfl, paging⟩ := word
    have keyword : w ∈ clauseKeywords := by
      have all : ∀ w ∈ pagingWords, w ∈ clauseKeywords := by decide
      exact all w paging
    have mem : w ∈ (items ts).flatMap (Item.words raw) :=
      List.mem_flatMap.2 ⟨_, hx, by simp [Item.words, keyword]⟩
    have kept := mem_clauseWordsFrom keyword mem ""
    rw [show clauseWordsFrom "" _ = clauseWordsOf _ from rfl, h.shows.clauseWordsOf_eq] at kept
    exact absurd kept (none w paging)

theorem pagingWord_not_mem_inner (q : Select) : ∀ w ∈ pagingWords, w ∉ q.innerWords d := by
  have joins : ∀ w ∈ pagingWords, ∀ kind, w ∉ joinWords kind := by
    intro w hw kind
    revert w
    cases kind <;> decide
  have fixed : ∀ w ∈ pagingWords,
      w ∉ ["FROM", "WHERE", "GROUP", "BY", "HAVING", "ORDER"] := by decide
  intro w hw mem
  have none := fixed w hw
  simp only [List.mem_cons, List.not_mem_nil, or_false, not_or] at none
  simp only [Select.innerWords, List.mem_append, List.mem_flatMap, List.mem_ite_nil_left,
    List.mem_ite_nil_right, List.mem_cons, List.not_mem_nil, or_false, none, and_false, false_or,
    or_self] at mem
  obtain ⟨j, -, mem⟩ := mem
  exact joins w hw j.kind mem

theorem items_clause (ws : List String) (ts : List Token) :
    items (clause ws ++ ts) = wordItems ws ++ items ts := by
  have lead : items (clause ws) = wordItems ws := by
    rw [clause, List.cons_append, Token.items_space, (Closes.words ws).apart, Token.items_words]
    exact List.append_nil _
  rw [(Closes.clause ws).apart, lead]

/-- A paging word and what stands behind it, as items. -/
def phraseItems (p : String × List Item) : List Item := wordItems [p.1] ++ p.2

theorem pagingPhrases_flatMap {ps : List (String × List Item)}
    (h : ∀ p ∈ ps, p.1 ∈ pagingWords ∧ IsUnpaged p.2) :
    pagingPhrases (ps.flatMap phraseItems) = ps := by
  induction ps with
  | nil => rfl
  | cons p ps ih =>
    obtain ⟨⟨word, unpaged⟩, rest⟩ := List.forall_mem_cons.1 h
    have next : ∀ y ∈ (ps.flatMap phraseItems).head?, y.pagingWord?.isSome = true := by
      cases ps with
      | nil => simp
      | cons q ps =>
        have first : (Item.token (.word q.1)).pagingWord? = some q.1 :=
          if_pos (rest q List.mem_cons_self).1
        simp [phraseItems, wordItems, first]
    show pagingPhrases (wordItems [p.1] ++ p.2 ++ ps.flatMap phraseItems) = p :: ps
    rw [pagingPhrases_word word unpaged next, ih rest]

/-- The phrases of the last clause. -/
def PagingForm.phrases (form : PagingForm) (limit offset : Option (List Token)) :
    List (String × List Item) :=
  let fetched (which : String) (l : List Token) : String × List Item :=
    ("FETCH", wordItems [which] ++ items l ++ wordItems ["ROWS", "ONLY"])
  match form with
  | .offsetLimit =>
    (offset.toList.map fun k => ("OFFSET", items k)) ++ limit.toList.map fun l => ("LIMIT", items l)
  | .limitOffset allRows =>
    ("LIMIT", items (limit.getD [.constant (.bare allRows)])) ::
      offset.toList.map fun k => ("OFFSET", items k)
  | .fetch =>
    match offset with
    | none => limit.toList.map (fetched "FIRST")
    | some k => ("OFFSET", items k ++ wordItems ["ROWS"]) :: limit.toList.map (fetched "NEXT")

/-- What a limit or an offset is written with: no paging word outside of its parentheses. -/
structure IsPart (ts : List Token) : Prop where
  closes : Closes ts
  unpaged : IsUnpaged (items ts)

theorem isPart_number (text : String) : IsPart [.constant (.bare text)] where
  closes := .plain rfl
  unpaged := by
    rw [Token.items_plain rfl, Token.items_nil]
    simp [IsUnpaged, Item.pagingWord?]

namespace PagingForm

variable {form : PagingForm} {limit offset : Option (List Token)}

theorem isUnpaged_phrases (hl : ∀ ts ∈ limit, IsPart ts) (hk : ∀ ts ∈ offset, IsPart ts) :
    ∀ p ∈ form.phrases limit offset, p.1 ∈ pagingWords ∧ IsUnpaged p.2 := by
  have fetched {which : String} (hw : which ∉ pagingWords) : ∀ l ∈ limit, IsUnpaged
      (wordItems [which] ++ items l ++ wordItems ["ROWS", "ONLY"]) := fun l h =>
    ((isUnpaged_words (by simpa using hw)).append (hl l h).unpaged).append
      (isUnpaged_words (by decide))
  cases form with
  | offsetLimit =>
    simp only [phrases, List.forall_mem_append, List.forall_mem_map, Option.mem_toList]
    exact ⟨fun k h => ⟨by decide, (hk k h).unpaged⟩, fun l h => ⟨by decide, (hl l h).unpaged⟩⟩
  | limitOffset allRows =>
    simp only [phrases, List.forall_mem_cons, List.forall_mem_map, Option.mem_toList]
    refine ⟨⟨by decide, ?_⟩, fun k h => ⟨by decide, (hk k h).unpaged⟩⟩
    cases limit with
    | none => exact (isPart_number allRows).unpaged
    | some l => exact (hl l rfl).unpaged
  | fetch =>
    cases offset with
    | none =>
      simp only [phrases, List.forall_mem_map, Option.mem_toList]
      exact fun l h => ⟨by decide, fetched (by decide) l h⟩
    | some k =>
      simp only [phrases, List.forall_mem_cons, List.forall_mem_map, Option.mem_toList]
      exact ⟨⟨by decide, (hk k rfl).unpaged.append (isUnpaged_words (by decide))⟩,
        fun l h => ⟨by decide, fetched (by decide) l h⟩⟩

theorem items_tokens (hl : ∀ ts ∈ limit, IsPart ts) (hk : ∀ ts ∈ offset, IsPart ts) :
    items (form.tokens limit offset) = (form.phrases limit offset).flatMap phraseItems := by
  have optional (w : String) (content : Option (List Token)) :
      items (optionalClause [w] content) =
        (content.toList.map fun ts => (w, items ts)).flatMap phraseItems := by
    cases content with
    | none => rfl
    | some ts => simp [optionalClause, items_clause, phraseItems]
  have closes (w : String) {content : Option (List Token)} (h : ∀ ts ∈ content, IsPart ts) :
      Closes (optionalClause [w] content) := by
    cases content with
    | none => exact .nil
    | some ts => exact (Closes.clause [w]).append (h ts rfl).closes
  have fetched (which : String) : items (PagingForm.tokens.fetched which limit) =
      (limit.toList.map fun l =>
        ("FETCH", wordItems [which] ++ items l ++ wordItems ["ROWS", "ONLY"])).flatMap
          phraseItems := by
    cases limit with
    | none => rfl
    | some l =>
      have written : PagingForm.tokens.fetched which (some l) =
          clause ["FETCH", which] ++ (l ++ Token.space :: words ["ROWS", "ONLY"]) := by
        simp [PagingForm.tokens.fetched]
      rw [written, items_clause, (hl l rfl).closes.apart, Token.items_space, Token.items_words]
      simp [phraseItems, wordItems]
  cases form with
  | offsetLimit =>
    rw [PagingForm.tokens, (closes "OFFSET" hk).apart, optional, optional, phrases,
      List.flatMap_append]
  | limitOffset allRows =>
    have count : Closes (limit.getD [.constant (.bare allRows)]) := by
      cases limit with
      | none => exact (isPart_number allRows).closes
      | some l => exact (hl l rfl).closes
    rw [PagingForm.tokens, List.append_assoc, items_clause, count.apart, optional, phrases,
      List.flatMap_cons, phraseItems, List.append_assoc]
  | fetch =>
    cases offset with
    | none => exact fetched "FIRST"
    | some k =>
      have written : PagingForm.fetch.tokens limit (some k) =
          clause ["OFFSET"] ++ (k ++ Token.space :: .word "ROWS" ::
            PagingForm.tokens.fetched "NEXT" limit) := by
        simp [PagingForm.tokens]
      rw [written, items_clause, (hk k rfl).closes.apart, Token.items_space, Token.items_word,
        fetched, phrases, List.flatMap_cons, phraseItems]
      simp [wordItems]

theorem pagingPhrases_tokens (hl : ∀ ts ∈ limit, IsPart ts) (hk : ∀ ts ∈ offset, IsPart ts) :
    pagingPhrases (items (form.tokens limit offset)) = form.phrases limit offset := by
  rw [items_tokens hl hk, pagingPhrases_flatMap (isUnpaged_phrases hl hk)]

end PagingForm

theorem Dialect.pagingForm_eq_nil_iff (d : Dialect) (limit offset : Option (List Token))
    (rest : List Item) : d.pagingForm limit offset rest = [] ↔ limit = none ∧ offset = none := by
  unfold pagingForm
  cases limit <;> cases offset <;> grind

theorem Dialect.items_top (schema : String) {limit : List Token} (h : Closes limit)
    (ts : List Token) :
    items ((sqlServer schema).frontTokens (some limit) none ++ ts) =
      wordItems ["TOP"] ++ .group limit :: items ts := by
  have top : Closes [.word "TOP"] := .plain rfl
  rw [frontTokens_sqlServer, List.append_assoc, List.append_assoc, top.apart, h.items_enclosed,
    List.singleton_append, Token.items_space]
  rfl

/-- The paging form of a block in three parts. -/
theorem Dialect.pagingPhrases_split (hd : d.BuiltIn) {limit offset : Option (List Token)}
    (hl : ∀ ts ∈ limit, IsPart ts) (hk : ∀ ts ∈ offset, IsPart ts) {middle : List Token}
    (hm : IsPart middle) :
    pagingPhrases (items (d.frontTokens limit offset ++ middle ++ d.backTokens limit offset)) =
      d.pagingForm limit offset (items middle) := by
  have trailing (eq : d.frontTokens limit offset = []) :
      pagingPhrases (items (d.frontTokens limit offset ++ middle ++ d.backTokens limit offset)) =
        pagingPhrases (items (d.backTokens limit offset)) := by
    rw [eq, List.nil_append, hm.closes.apart, pagingPhrases_unpaged hm.unpaged]
  have form : pagingPhrases (items (d.paging.tokens limit offset)) =
      d.paging.phrases limit offset := PagingForm.pagingPhrases_tokens hl hk
  cases limit with
  | none =>
    cases offset with
    | none => cases hd <;> exact trailing rfl
    | some k => cases hd <;> exact (trailing rfl).trans form
  | some l =>
    cases offset with
    | some k => cases hd <;> exact (trailing rfl).trans form
    | none =>
      cases hd with
      | sqlServer schema =>
        -- the only limit in front, so that the middle part is what stands behind it
        have written : (sqlServer schema).backTokens (some l) none = [] := rfl
        rw [written, List.append_nil, items_top schema (hl l rfl).closes]
        have unpaged : IsUnpaged (.group l :: items middle) :=
          List.forall_mem_cons.2 ⟨rfl, hm.unpaged⟩
        have alone : pagingPhrases ([("TOP", .group l :: items middle)].flatMap phraseItems) =
            [("TOP", .group l :: items middle)] :=
          pagingPhrases_flatMap (by simpa using ⟨by decide, unpaged⟩)
        simpa [phraseItems, wordItems, pagingForm, sqlServer] using alone
      | _ => exact (trailing rfl).trans form

end SelectCompiler
