import SelectCompiler.Sql.Command

/-!
Tokens with the positions of their placeholders. The text of a command is put together from what each
of its tokens says at its position.
-/

namespace SelectCompiler

namespace Token

/-- Every token with the number of the next placeholder. -/
def positioned : (position : Nat) → List Token → List (Nat × Token)
  | _, [] => []
  | position, t :: ts =>
    (position, t) :: positioned (if t.binding?.isSome then position + 1 else position) ts

theorem bindings_append (a b : List Token) : bindings (a ++ b) = bindings a ++ bindings b :=
  List.filterMap_append

def after (position : Nat) (ts : List Token) : Nat := position + (bindings ts).length

@[simp] theorem after_nil (position : Nat) : after position [] = position := rfl

theorem after_cons (position : Nat) (t : Token) (ts : List Token) :
    after position (t :: ts) =
      after (if t.binding?.isSome then position + 1 else position) ts := by
  cases h : t.binding? <;> simp [after, bindings, h]
  omega

@[simp] theorem after_append (position : Nat) (a b : List Token) :
    after position (a ++ b) = after (after position a) b := by
  simp [after, bindings, Nat.add_assoc]

@[simp] theorem after_space (n : Nat) (ts : List Token) : after n (.space :: ts) = after n ts := rfl

@[simp] theorem after_word (n : Nat) (w : String) (ts : List Token) :
    after n (.word w :: ts) = after n ts := rfl

@[simp] theorem after_symbol (n : Nat) (s : String) (ts : List Token) :
    after n (.symbol s :: ts) = after n ts := rfl

@[simp] theorem after_enclosed (n : Nat) (ts : List Token) : after n (enclosed ts) = after n ts := by
  simp [enclosed]

@[simp] theorem after_enclosedIf (n : Nat) (needed : Bool) (ts : List Token) :
    after n (enclosedIf needed ts) = after n ts := by
  cases needed <;> simp [enclosedIf]

theorem words_cons_cons (w v : String) (ws : List String) :
    words (w :: v :: ws) = [Token.word w] ++ [Token.space] ++ words (v :: ws) := by
  simp [words, List.intercalate_cons_cons]

theorem bindings_words (ws : List String) : bindings (words ws) = [] := by
  induction ws with
  | nil => rfl
  | cons w ws ih =>
    cases ws with
    | nil => rfl
    | cons v ws =>
      rw [words_cons_cons, bindings_append, ih]
      rfl

theorem bindings_clause (ws : List String) : bindings (clause ws) = [] := by
  have opened : clause ws = [Token.space] ++ words ws ++ [Token.space] := rfl
  rw [opened, bindings_append, bindings_append, bindings_words]
  rfl

@[simp] theorem after_words (n : Nat) (ws : List String) : after n (words ws) = n := by
  rw [after, bindings_words, List.length_nil, Nat.add_zero]

@[simp] theorem after_clause (n : Nat) (ws : List String) : after n (clause ws) = n := by
  rw [after, bindings_clause, List.length_nil, Nat.add_zero]

@[simp] theorem after_testWords (n : Nat) (negated : Bool) (w : String) :
    after n (testWords negated w) = n := after_clause n _

@[simp] theorem positioned_append (position : Nat) (a b : List Token) :
    positioned position (a ++ b) = positioned position a ++ positioned (after position a) b := by
  induction a generalizing position with
  | nil => rfl
  | cons t ts ih => rw [List.cons_append, positioned, ih, positioned, after_cons, List.cons_append]

end Token

namespace Dialect

variable (d : Dialect)

theorem texts_eq (position : Nat) (ts : List Token) :
    d.texts position ts = (Token.positioned position ts).map fun p => d.tokenText p.1 p.2 := by
  induction ts generalizing position with
  | nil => rfl
  | cons t ts ih => rw [texts, ih, Token.positioned, List.map_cons]

/-- The characters of tokens, the first placeholder having the given position. -/
def characters (position : Nat) (ts : List Token) : List Char :=
  (Token.positioned position ts).flatMap fun p => (d.tokenText p.1 p.2).toList

theorem toList_command (ts : List Token) : (d.command ts).sql.toList = d.characters 1 ts := by
  rw [command, String.toList_join, texts_eq, List.flatMap_map, characters]

end Dialect

theorem Select.compile_ok {d : Dialect} {o : Options} {s : Select} {out : Command}
    (h : s.compile d o = .ok out) : s.faults d o = [] ∧ out = d.command (s.tokens d o) := by
  unfold compile at h
  cases none : s.faults d o with
  | nil =>
    rw [none] at h
    cases h
    exact ⟨rfl, rfl⟩
  | cons fault faults =>
    rw [none] at h
    cases h

end SelectCompiler
