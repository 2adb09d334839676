/-!
The tables of a TOML document, and how headers and keys build them up. A table is opened once: by a
header of its own, or by the dotted keys that run through it, but not by both.
-/

namespace SelectCompiler.Toml

inductive TableKind where
  /-- A header of its own; also the table of the whole document. -/
  | header
  /-- The header of a table inside it. -/
  | implicit
  /-- A dotted key. -/
  | dotted
  /-- Braces after an equals sign; nothing is added to it later. -/
  | inlined
deriving DecidableEq

inductive Item where
  | text (s : String)
  | bool (b : Bool)
  | number
  /-- A date, a time of day, or both. -/
  | moment
  | array (items : List Item)
  | table (kind : TableKind) (entries : List (String × Item))
  /-- An array that headers in double brackets build up. -/
  | tables (tables : List (List (String × Item)))

abbrev Entries := List (String × Item)

namespace Entries

def get? (entries : Entries) (key : String) : Option Item :=
  (entries.find? (·.1 == key)).map (·.2)

/-- Puts an item in the place of an earlier one of its key, or at the end. -/
def put (key : String) (item : Item) : Entries → Entries
  | [] => [(key, item)]
  | entry :: entries =>
    if entry.1 = key then (key, item) :: entries else entry :: put key item entries

end Entries

structure Table where
  kind : TableKind
  entries : Entries

namespace Table

def put (t : Table) (key : String) (item : Item) : Table :=
  { t with entries := t.entries.put key item }

/-- Changes the table that a path leads to. Tables that are not there yet come about on the way;
an array of tables stands for its last one. -/
def change (dotted : Bool) (f : Table → Option Table) : List String → Table → Option Table
  | [], t => f t
  | key :: path, t =>
    match t.entries.get? key with
    | none => do
      let inner ← change dotted f path ⟨if dotted then .dotted else .implicit, []⟩
      return t.put key (.table inner.kind inner.entries)
    | some (.table kind entries) =>
      if kind = .inlined ∨ (dotted ∧ kind = .header) then none
      else do
        let inner ← change dotted f path ⟨kind, entries⟩
        return t.put key (.table inner.kind inner.entries)
    | some (.tables ts) =>
      match ts.getLast? with
      | none => none
      | some last => do
        let inner ← change dotted f path ⟨.header, last⟩
        return t.put key (.tables (ts.dropLast ++ [inner.entries]))
    | some _ => none

def define (path : List String) (key : String) (item : Item) : Table → Option Table :=
  change true
    (fun t =>
      if (t.kind = .dotted) = path.isEmpty ∨ (t.entries.get? key).isSome then none
      else some (t.put key item))
    path

def openTable (path : List String) (key : String) : Table → Option Table :=
  change false
    (fun t =>
      match t.entries.get? key with
      | none => some (t.put key (.table .header []))
      | some (.table .implicit entries) => some (t.put key (.table .header entries))
      | some _ => none)
    path

def openNext (path : List String) (key : String) : Table → Option Table :=
  change false
    (fun t =>
      match t.entries.get? key with
      | none => some (t.put key (.tables [[]]))
      | some (.tables ts) => some (t.put key (.tables (ts ++ [[]])))
      | some _ => none)
    path

def empty : Table := ⟨.header, []⟩

end Table

end SelectCompiler.Toml
