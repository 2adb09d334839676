import SelectCompiler.Toml.Document
import SelectCompiler.Toml.Scalars
import SelectCompiler.Toml.Strings

/-!
Reading a TOML document: values, and the lines with headers and keys that make up its tables.
-/

namespace SelectCompiler.Toml

/-! ### Values -/

mutual

/-- A value at the start of a text, and what follows it. At most `levels` more arrays and inline
tables may be nested in each other. -/
def takeValue : (fuel levels : Nat) → List Char → Option (Item × List Char)
  | 0, _, _ => none
  | fuel + 1, levels, cs =>
    match cs with
    | '"' :: '"' :: '"' :: cs => (takeLongString '"' cs).map fun (s, cs) => (.text s, cs)
    | '\'' :: '\'' :: '\'' :: cs => (takeLongString '\'' cs).map fun (s, cs) => (.text s, cs)
    | '"' :: _ | '\'' :: _ => (takeString cs).map fun (s, cs) => (.text s, cs)
    | '[' :: cs =>
      match levels with
      | 0 => none
      | levels + 1 => (takeItems fuel levels cs).map fun (items, cs) => (.array items, cs)
    | '{' :: cs =>
      match levels, skipSpaces cs with
      | 0, _ => none
      | _, '}' :: cs => some (.table .inlined [], cs)
      | levels + 1, cs =>
        (takeEntries fuel levels .empty cs).map fun (t, cs) => (.table .inlined t.entries, cs)
    | 't' :: 'r' :: 'u' :: 'e' :: cs => some (.bool true, cs)
    | 'f' :: 'a' :: 'l' :: 's' :: 'e' :: cs => some (.bool false, cs)
    | cs =>
      match takeMoment cs with
      | some cs => some (.moment, cs)
      | none => (takeNumber cs).map (.number, ·)

/-- The items of an array up to its closing bracket; a comma may follow the last one. -/
def takeItems : (fuel levels : Nat) → List Char → Option (List Item × List Char)
  | 0, _, _ => none
  | fuel + 1, levels, cs =>
    match skipLines (cs.length + 1) cs with
    | ']' :: cs => some ([], cs)
    | cs => do
      let (item, cs) ← takeValue fuel levels cs
      match skipLines (cs.length + 1) cs with
      | ']' :: cs => return ([item], cs)
      | ',' :: cs =>
        let (items, cs) ← takeItems fuel levels cs
        return (item :: items, cs)
      | _ => none

/-- The entries of an inline table up to its closing brace. -/
def takeEntries : (fuel levels : Nat) → Table → List Char → Option (Table × List Char)
  | 0, _, _, _ => none
  | fuel + 1, levels, t, cs => do
    let ((path, key), cs) ← takeKey cs
    match cs with
    | '=' :: cs =>
      let (item, cs) ← takeValue fuel levels (skipSpaces cs)
      let t ← t.define path key item
      match skipSpaces cs with
      | '}' :: cs => return (t, cs)
      | ',' :: cs => takeEntries fuel levels t cs
      | _ => none
    | _ => none

end

/-! ### Documents -/

/-- The end of a line: spaces, a comment, and a line end unless the text is over. -/
def endLine (cs : List Char) : Option (List Char) :=
  match skipComment (skipSpaces cs) with
  | [] => some []
  | cs => takeLineEnd cs

/-- Reads line after line. `current` is the path of the table that keys go into. -/
def takeLines : (fuel : Nat) → (current : List String) → Table → List Char → Option Table
  | 0, _, _, _ => none
  | fuel + 1, current, t, cs =>
    match skipLines (cs.length + 1) cs with
    | [] => some t
    | '[' :: '[' :: cs => do
      let ((path, key), cs) ← takeKey cs
      match cs with
      | ']' :: ']' :: cs => takeLines fuel (path ++ [key]) (← t.openNext path key) (← endLine cs)
      | _ => none
    | '[' :: cs => do
      let ((path, key), cs) ← takeKey cs
      match cs with
      | ']' :: cs => takeLines fuel (path ++ [key]) (← t.openTable path key) (← endLine cs)
      | _ => none
    | cs => do
      let ((path, key), cs) ← takeKey cs
      match cs with
      | '=' :: cs =>
        let (item, cs) ← takeValue (2 * cs.length + 2) nestingLimit (skipSpaces cs)
        let t ← Table.change false (Table.define path key item) current t
        takeLines fuel current t (← endLine cs)
      | _ => none

def ofText? (text : String) : Option Entries :=
  let cs := match text.toList with
    | '\uFEFF' :: cs => cs
    | cs => cs
  (takeLines (cs.length + 1) [] .empty cs).map Table.entries

end SelectCompiler.Toml
