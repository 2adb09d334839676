import SelectCompiler.Numeral.Binary64

/-!
JSON values, and taking them apart: records by the names of their members or by position, and
variants by their tag.
-/

namespace SelectCompiler

/-- A JSON value. Numbers written as integers are kept apart from the others. -/
inductive Json where
  | null
  | bool (b : Bool)
  | int (n : Int)
  | float (x : Binary64)
  | str (s : String)
  | arr (items : List Json)
  /-- Members in the order of the text; names may repeat. -/
  | obj (members : List (String × Json))
  /-- Well-formed text that stands for no value: a number out of range, an unpaired surrogate, or
  too deep a nesting. It is an error only where a value is asked for. -/
  | unreadable

namespace Json

def bool? : Json → Option Bool
  | bool b => some b
  | _ => none

def str? : Json → Option String
  | str s => some s
  | _ => none

def int? : Json → Option Int
  | int n => some n
  | _ => none

/-- A number, an integer being rounded to the nearest float. -/
def float? : Json → Option Binary64
  | float x => some x
  | int n => some (Binary64.ofInt n)
  | _ => none

/-- An array whose items can all be read. -/
def list? {α : Type} (read : Json → Option α) : Json → Option (List α)
  | arr items => items.mapM read
  | _ => none

mutual

def depth : Json → Nat
  | arr items => depthItems items + 1
  | obj members => depthMembers members + 1
  | _ => 0

def depthItems : List Json → Nat
  | [] => 0
  | j :: js => max j.depth (depthItems js)

def depthMembers : List (String × Json) → Nat
  | [] => 0
  | (_, j) :: ms => max j.depth (depthMembers ms)

end

/-! ### Records -/

def member? (members : List (String × Json)) (name : String) : Option Json :=
  (members.find? (·.1 == name)).map (·.2)

def isRepeated (members : List (String × Json)) (name : String) : Bool :=
  decide (1 < members.countP (·.1 == name))

/-- The members of an object with the given names; other members do not matter. -/
def members? (names : List String) : Json → Option (List (Option Json))
  | obj members =>
    if names.any (isRepeated members) then none else some (names.map (member? members))
  | _ => none

/-- The fields of a record: an object, or an array of all of them in order. -/
def record? (names : List String) : Json → Option (List (Option Json))
  | arr items => if items.length = names.length then some (items.map some) else none
  | j => j.members? names

/-- The fields of a variant: an object, or where `listed` allows it an array of all of them. -/
def fields? (listed : Bool) (names : List String) (j : Json) : Option (List (Option Json)) :=
  if listed then j.record? names else j.members? names

/-- The fields of a record that may all be left out: an object, or an array of the first of them. -/
def partialRecord? (names : List String) : Json → Option (List (Option Json))
  | arr items =>
    if items.length ≤ names.length then
      some (items.map some ++ List.replicate (names.length - items.length) none)
    else none
  | j => j.members? names

def required {α : Type} (read : Json → Option α) (field : Option Json) : Option α := field.bind read

/-- A field that may be missing or null. -/
def optional {α : Type} (read : Json → Option α) : Option Json → Option (Option α)
  | none | some null => some none
  | some j => (read j).map some

/-- A field that may be missing but not null. -/
def defaulted {α : Type} (read : Json → Option α) (default : α) : Option Json → Option α
  | none => some default
  | some j => read j

/-! ### Variants -/

/-- A variant with data: an object of one member, named by the tag. -/
def tagged? : Json → Option (String × Json)
  | obj [member] => some member
  | _ => none

/-- A variant without data: its tag alone, or a null member of that name. -/
def tag? : Json → Option String
  | str tag => some tag
  | obj [(tag, null)] => some tag
  | _ => none

end Json

end SelectCompiler
