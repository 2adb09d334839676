import SelectCompiler.Proofs.Tokens.Phrase
import SelectCompiler.Sql.Command

/-!
The characters that a dialect writes on its own account: outside of quotes, and not because the tree
gives them. Quotes and placeholder signs are not among them.
-/

namespace SelectCompiler

def isVocabularyChar (c : Char) : Bool :=
  c.isAlphanum || c == '_' || c == ' ' || c == '(' || c == ')' || c == ','

def isMarkChar (c : Char) : Bool :=
  ['(', ')', ',', '.', '+', '-', '*', '/', '%', '|', '=', '<', '>', '&'].contains c

namespace Dialect

variable (d : Dialect)

/-- What a token says outside of quotes and not because the tree says so. -/
def ownText : Token → String
  | .name _ | .verbatim _ | .placeholder _ => ""
  | .constant (.quoted lead _ tail) => lead ++ tail
  | t => d.tokenText 0 t

def isOwnChar (c : Char) : Bool :=
  isVocabularyChar c || isMarkChar c || (d.constants.bytes == .bytea && c == ':')

/-- The first character of every placeholder. -/
def placeholderSign : Char :=
  match d.placeholder with
  | .unnumbered => '?'
  | .numbered sign => sign.toList.headD '?'

variable {d}

theorem keyword_chars : ∀ w ∈ keywords, w.toList.all isVocabularyChar = true := by decide

theorem typeWord_chars (hd : d.BuiltIn) :
    ∀ w ∈ d.typeWords, w.toList.all isVocabularyChar = true :=
  hd.of_databases (by decide) fun _ h => h

theorem mark_chars : ∀ s ∈ marks, s.toList.all isMarkChar = true := by decide

theorem margin_chars (hd : d.BuiltIn) :
    ∀ m ∈ d.quoteMargins, (m.1 ++ m.2).toList.all d.isOwnChar = true :=
  hd.of_databases (by decide) fun _ h => h

theorem unsigned_chars {cs : List Char} (h : IsUnsigned cs) {c : Char} (hc : c ∈ cs) :
    c.isAlphanum = true ∨ c = '.' ∨ c = '+' ∨ c = '-' := by
  rcases h with ⟨w, hw, rfl⟩ | ⟨mantissa, exponent, rfl, ⟨-, body⟩, signed⟩
  · have letters := List.all_eq_true.1 (constantWord_chars w hw).2
    exact .inl (by simp [Char.isAlphanum, letters c hc])
  · rcases List.mem_append.1 hc with hc | hc
    · exact (body c hc).imp_right .inl
    · rcases signed with rfl | ⟨sign, digits, rfl, sign', digit⟩
      · cases hc
      · rcases List.mem_cons.1 hc with rfl | hc
        · exact .inl (by decide)
        · rcases List.mem_cons.1 hc with rfl | hc
          · exact .inr (.inr sign')
          · exact .inl (isAlphanum_of_isDigit (digit c hc))

theorem bare_chars {cs : List Char} (h : IsBare cs) {c : Char} (hc : c ∈ cs) :
    c.isAlphanum = true ∨ c = '.' ∨ c = '+' ∨ c = '-' := by
  rcases h with h | ⟨ds, rfl, h⟩
  · exact unsigned_chars h hc
  · exact (List.mem_cons.1 hc).elim (.inr ∘ .inr ∘ .inr) (unsigned_chars h)

/-- Outside of quotes a phrase has own characters only, what the tree gives aside. -/
theorem PhraseOf.own_chars (hd : d.BuiltIn) {ok : List Token → Prop} {ts : List Token}
    (h : d.PhraseOf ok ts) :
    ∀ t ∈ ts, ∀ c ∈ (d.ownText t).toList, d.isOwnChar c = true := by
  refine h.forall_mem ?_ (fun t solid => ?_) fun s hs c hc => ?_
  · intro c hc
    have blank : (" " : String).toList = [' '] := by decide
    obtain rfl := List.mem_singleton.1 (blank ▸ hc)
    rfl
  · cases solid with
    | word hw =>
      intro c hc
      have := (List.mem_append.1 hw).elim (keyword_chars _) (typeWord_chars hd _)
      simp [isOwnChar, List.all_eq_true.1 this c hc]
    | verbatim text => exact nofun
    | name n => exact nofun
    | bare hb =>
      intro c hc
      have := bare_chars hb hc
      rcases this with this | rfl | rfl | rfl
      · simp [isOwnChar, isVocabularyChar, this]
      · rfl
      · rfl
      · rfl
    | quoted content hm => exact List.all_eq_true.1 (margin_chars hd _ hm)
    | placeholder b => exact nofun
  · simp [isOwnChar, List.all_eq_true.1 (mark_chars s hs) c hc]

theorem placeholderText_head (hd : d.BuiltIn) (position : Nat) :
    ∃ cs, (d.placeholderText position).toList = d.placeholderSign :: cs := by
  cases hd <;> simp [placeholderText, placeholderSign, postgres, mysql, sqlite, sqlServer, oracle,
    String.toList_append]

theorem isOwnChar_placeholderSign (hd : d.BuiltIn) : d.isOwnChar d.placeholderSign = false := by
  cases hd <;> rfl

/-- No placeholder occurs in what a dialect writes besides placeholders. -/
theorem placeholder_not_infix (hd : d.BuiltIn) {text : String}
    (h : ∀ c ∈ text.toList, d.isOwnChar c = true) (position : Nat) :
    ¬(d.placeholderText position).toList <:+: text.toList := by
  intro occurs
  obtain ⟨cs, hcs⟩ := placeholderText_head hd position
  have sign : d.placeholderSign ∈ text.toList := occurs.subset (hcs ▸ List.mem_cons_self)
  have own := h _ sign
  rw [isOwnChar_placeholderSign hd] at own
  cases own

end Dialect

end SelectCompiler
