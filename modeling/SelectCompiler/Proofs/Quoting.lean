import SelectCompiler.Proofs.Text.Scanning
import SelectCompiler.Proofs.Tokens.LeafContents
import SelectCompiler.Proofs.Tokens.TreePhrase
import SelectCompiler.Proofs.Tree.LeafOrder

/-!
Names and texts cannot leave their quotes. Main statement: reading the quotes of a finished text
gives back exactly the names and the texts of the tree, in their order, whatever characters they
have, and outside of them all parentheses close.
-/

namespace SelectCompiler

def Leaf.names (d : Dialect) : Leaf → List String
  | .column c => (givenName c.table).toList ++ [c.name]
  | .function schema name isBuiltIn =>
    (d.schemaOf isBuiltIn schema).toList ++ if isBuiltIn then [] else [name]
  | .table schema name => (givenName schema).toList ++ [name]
  | .aliasName name => [name]
  | _ => []

/-- What stands in the quotes of a constant, if it has any. -/
def Dialect.payload? (d : Dialect) : Value → Option String
  | .text s => some s
  | .date date => some date.text
  | .dateTime dt =>
    some (String.ofList (dt.characters d.constants.dateTimeMark d.constants.fraction))
  | .bytes bytes =>
    match d.constants.bytes with
    | .hexString => some (upperHex bytes)
    | .hexNumber => none
    | .bytea => some ("\\x" ++ upperHex bytes)
  | _ => none

/-- The texts that a leaf is written with: those of constants that are not bound. -/
def Leaf.texts (d : Dialect) (o : Options) : Leaf → List String
  | .literal l => if o.bindLiterals then [] else (d.payload? l.value).toList
  | _ => []

/-- No raw text of the tree disturbs the quotes and parentheses around it. -/
def Leaf.IsTame : Leaf → Prop
  | .function _ name isBuiltIn => isBuiltIn = true → SelectCompiler.IsTame name
  | .target (.custom name) => SelectCompiler.IsTame name
  | .fragment _ => False
  | _ => True

instance : (l : Leaf) → Decidable l.IsTame
  | .function _ name isBuiltIn =>
    inferInstanceAs (Decidable (isBuiltIn = true → SelectCompiler.IsTame name))
  | .target (.custom name) => inferInstanceAs (Decidable (SelectCompiler.IsTame name))
  | .fragment _ => inferInstanceAs (Decidable False)
  | .column _ | .literal _ | .parameter _ | .table _ _ | .aliasName _ | .target .boolean
  | .target .int | .target .bigInt | .target .float | .target .decimal | .target .text
  | .target .date | .target .dateTime | .target .binary => inferInstanceAs (Decidable True)

theorem Leaf.IsTame.raw {l : Leaf} (h : l.IsTame) :
    ∀ text ∈ l.rawText?, SelectCompiler.IsTame text := by
  refine forall_rawText? ?_ ?_ ?_
  · rintro schema name rfl
    exact h rfl
  · rintro name rfl
    exact h
  · rintro text rfl
    exact h.elim

def Token.name? : Token → Option String
  | .name n => some n
  | _ => none

def Token.text? : Token → Option String
  | .constant (.quoted _ content _) => some content
  | _ => none

variable {d : Dialect} {o : Options}

theorem scanned_filterMap {f : Scanned → Option String} {g : Token → Option String}
    (h : ∀ p, (d.scannedToken p).filterMap f = (g p.2).toList) (position : Nat) (ts : List Token) :
    (d.scanned position ts).filterMap f = ts.filterMap g := by
  induction ts generalizing position with
  | nil => rfl
  | cons t ts ih =>
    rw [Dialect.scanned, Token.positioned, List.flatMap_cons, List.filterMap_append, h,
      ← Dialect.scanned, ih]
    cases found : g t with
    | none => rw [List.filterMap_cons_none found]; rfl
    | some x => rw [List.filterMap_cons_some found]; rfl

theorem filterMap_none {f : Scanned → Option String} (plain : ∀ c, f (.plain c) = none)
    (cs : List Char) : (cs.map Scanned.plain).filterMap f = [] := by
  rw [List.filterMap_eq_nil_iff]
  intro x hx
  obtain ⟨c, -, rfl⟩ := List.mem_map.1 hx
  exact plain c

theorem scanned_names (position : Nat) (ts : List Token) :
    (d.scanned position ts).filterMap Scanned.name? = ts.filterMap Token.name? := by
  have plain (cs : List Char) : (cs.map Scanned.plain).filterMap Scanned.name? = [] :=
    filterMap_none (fun _ => rfl) cs
  refine scanned_filterMap (fun p => ?_) position ts
  obtain ⟨n, t⟩ := p
  cases t with
  | name n => rfl
  | constant c =>
    cases c with
    | bare text => exact plain _
    | quoted lead content tail =>
      rw [Dialect.scannedToken, List.filterMap_append, plain, List.filterMap_cons_none rfl, plain]
      rfl
  | _ => exact plain _

theorem scanned_texts (position : Nat) (ts : List Token) :
    (d.scanned position ts).filterMap Scanned.text? = ts.filterMap Token.text? := by
  have plain (cs : List Char) : (cs.map Scanned.plain).filterMap Scanned.text? = [] :=
    filterMap_none (fun _ => rfl) cs
  refine scanned_filterMap (fun p => ?_) position ts
  obtain ⟨n, t⟩ := p
  cases t with
  | name n => rfl
  | constant c =>
    cases c with
    | bare text => exact plain _
    | quoted lead content tail =>
      have content : (Scanned.text content).text? = some content := rfl
      rw [Dialect.scannedToken, List.filterMap_append, plain, List.filterMap_cons_some content,
        plain]
      rfl
  | _ => exact plain _

/-- What is only found in contents is found in the contents of the leaves. -/
theorem filterMap_leaves (hd : d.BuiltIn) {s : Select} (none : s.faults d o = [])
    {g : Token → Option String} {leaf : Leaf → List String}
    (content : ∀ t, t.isContent = false → g t = .none)
    (h : ∀ l : Leaf, (l.contents d o).filterMap g = leaf l) :
    (s.tokens d o).filterMap g = (s.leaves d.pagingOrder).flatMap leaf := by
  have contents : (s.tokens d o).filterMap g = (Token.contents (s.tokens d o)).filterMap g := by
    rw [Token.contents, List.filterMap_filter]
    refine List.filterMap_congr fun t _ => ?_
    cases c : t.isContent with
    | true => rfl
    | false => exact content t c
  rw [contents, (contents_step hd o).ofSelect s none, List.filterMap_flatMap]
  exact List.flatMap_congr fun l _ => h l

theorem filterMap_ownedName {g : Token → Option String}
    (content : ∀ t, t.isContent = false → g t = none) (owner : Option String) (t : Token) :
    (ownedName owner t).filterMap g =
      (owner.toList.map Token.name).filterMap g ++ (g t).toList := by
  rw [ownedName, List.filterMap_append]
  congr 1
  cases c : t.isContent with
  | true => cases h : g t <;> simp [Token.contents, c, h]
  | false => simp [Token.contents, c, content t c]

theorem leaf_names (l : Leaf) : (l.contents d o).filterMap Token.name? = l.names d := by
  have content : ∀ t : Token, t.isContent = false → t.name? = none := by
    intro t h
    cases t <;> first | rfl | cases h
  have owned (owner : Option String) (t : Token) :
      (ownedName owner t).filterMap Token.name? = owner.toList ++ t.name?.toList := by
    rw [filterMap_ownedName content]
    cases owner <;> rfl
  cases l with
  | column c => exact owned _ _
  | literal l =>
    rw [Leaf.contents, Dialect.literalToken]
    cases o.bindLiterals with
    | true => rfl
    | false => cases d.constant l.value l.type <;> rfl
  | parameter p => rfl
  | target type => cases type <;> rfl
  | function schema name isBuiltIn =>
    cases isBuiltIn
    · exact owned _ _
    · exact owned _ _
  | table schema name => exact owned _ _
  | aliasName name => rfl
  | fragment text => rfl

theorem text?_constant (value : Value) (type : SqlType) :
    (Token.constant (d.constant value type)).text? = d.payload? value := by
  cases value with
  | bytes bs =>
    cases h : d.constants.bytes <;> simp [Dialect.constant, Dialect.payload?, Token.text?, h]
  | _ => rfl

theorem leaf_texts (l : Leaf) : (l.contents d o).filterMap Token.text? = l.texts d o := by
  have content : ∀ t : Token, t.isContent = false → t.text? = none := by
    intro t h
    cases t with
    | constant c => cases c <;> first | rfl | cases h
    | _ => rfl
  have owned (owner : Option String) (t : Token) (h : t.text? = none) :
      (ownedName owner t).filterMap Token.text? = [] := by
    rw [filterMap_ownedName content, h]
    cases owner <;> rfl
  cases l with
  | column c => exact owned _ _ rfl
  | literal l =>
    rw [Leaf.contents, Dialect.literalToken, Leaf.texts, ← text?_constant l.value l.type]
    cases o.bindLiterals with
    | true => rfl
    | false => cases d.constant l.value l.type <;> rfl
  | parameter p => rfl
  | target type => cases type <;> rfl
  | function schema name isBuiltIn => exact owned _ _ (by cases isBuiltIn <;> rfl)
  | table schema name => exact owned _ _ rfl
  | aliasName name => rfl
  | fragment text => rfl

theorem tame_tokens (hd : d.BuiltIn) {s : Select} (none : s.faults d o = [])
    (tame : ∀ l ∈ s.leaves .ofFields, l.IsTame) : ∀ t ∈ s.tokens d o, t.IsTame := by
  intro t ht
  cases t with
  | verbatim text => exact Select.raw_tokens hd none (fun l hl => (tame l hl).raw) ht
  | _ => trivial

/-- The finished text is scanned to its end; its names and texts are those of the tree, in the order
in which the dialect writes it, and its parentheses close. -/
theorem Select.compile_scans (hd : d.BuiltIn) {s : Select} {out : Command}
    (tame : ∀ l ∈ s.leaves .ofFields, l.IsTame) (h : s.compile d o = .ok out) :
    ∃ scanned, d.scan out.sql = some scanned ∧
      scanned.filterMap Scanned.name? = (s.leaves d.pagingOrder).flatMap (Leaf.names d) ∧
      scanned.filterMap Scanned.text? = (s.leaves d.pagingOrder).flatMap (Leaf.texts d o) ∧
      IsBalanced (scanned.filterMap Scanned.plain?) := by
  obtain ⟨none, rfl⟩ := compile_ok h
  have phrase := (phrase_step hd o).ofSelect s
  have tame := tame_tokens hd none tame
  refine ⟨d.scanned 1 (s.tokens d o), ?_, ?_, ?_, ?_⟩
  · have scans : d.Scans 1 (s.tokens d o) [] :=
      Dialect.scans_phrase hd phrase tame 1 fun _ h => nomatch h
    simpa [Dialect.Scans, Dialect.scan, Dialect.toList_command, Dialect.scanFrom,
      ScanState.complete] using scans
  · rw [scanned_names]
    exact filterMap_leaves hd none (fun t h => by cases t <;> first | rfl | cases h) leaf_names
  · rw [scanned_texts]
    refine filterMap_leaves hd none (fun t h => ?_) leaf_texts
    cases t with
    | constant c => cases c <;> first | rfl | cases h
    | _ => rfl
  · have depth := Dialect.depth_phrase hd phrase tame 1 0 []
    rwa [List.append_nil] at depth

def quotedOrders : Select where
  projections := [⟨.function ⟨"COUNT", none, true, false, false, [true],
    [.column ⟨"it's", some "a\x60b", .int, false⟩], .int⟩, ""⟩]
  sources := [.table "orders" none (some "a\x60b")]
  predicate := some (.binary (.column ⟨"\x60", none, .text, false⟩) .equal
    (.literal ⟨.text "\\' OR ''='", .text⟩) .boolean)

theorem compile_scans_quotedOrders : ∃ out scanned,
    quotedOrders.compile .mysql {} = .ok out ∧ Dialect.mysql.scan out.sql = some scanned ∧
    scanned.filterMap Scanned.name? = ["a\x60b", "it's", "orders", "a\x60b", "\x60"] ∧
    scanned.filterMap Scanned.text? = ["\\' OR ''='"] := by
  have tame : ∀ l ∈ quotedOrders.leaves .ofFields, l.IsTame := by decide
  obtain ⟨scanned, scan, names, texts, -⟩ :=
    Select.compile_scans (d := .mysql) (o := {}) .mysql (s := quotedOrders) tame rfl
  exact ⟨_, scanned, rfl, scan, names, texts⟩

end SelectCompiler
