import SelectCompiler.Dialect.Database
import SelectCompiler.Sql.Command

/-!
Dialects by id. Ids do not differ by the case of ASCII letters, and an id that nothing is registered
under may still be one of the names of a database.
-/

namespace SelectCompiler

/-- Dialects under their ids, in the order of the ids. -/
structure Registry where
  entries : List (String × Dialect)
deriving DecidableEq

/-- Why a query that is to be compiled by id is not. -/
inductive CompileError where
  | unknownDialect (id : String)
  | fault (cause : Fault)
deriving DecidableEq

def CompileError.message : CompileError → String
  | .unknownDialect id => "Unknown dialect: '" ++ id ++ "'"
  | .fault cause => cause.message

namespace Registry

def empty : Registry := ⟨[]⟩

/-- The form of an id under which its dialect is kept. -/
def fold (id : String) : String := id.toLower

/-- Puts an entry into its place; an entry of the same key goes. -/
def insertEntry (key : String) (d : Dialect) : List (String × Dialect) → List (String × Dialect)
  | [] => [(key, d)]
  | entry :: entries =>
    if key = entry.1 then (key, d) :: entries
    else if key < entry.1 then (key, d) :: entry :: entries
    else entry :: insertEntry key d entries

/-- The dialect of the entry that goes when one of this key is put into its place. -/
def displaced? (key : String) : List (String × Dialect) → Option Dialect
  | [] => none
  | entry :: entries =>
    if key = entry.1 then some entry.2
    else if key < entry.1 then none
    else displaced? key entries

/-- The dialect that is kept under an id itself. -/
def find? (r : Registry) (id : String) : Option Dialect :=
  (r.entries.find? (·.1 == fold id)).map (·.2)

def register (r : Registry) (id : String) (d : Dialect) : Registry :=
  ⟨insertEntry (fold id) d r.entries⟩

/-- Registers a dialect, and gives back the one that it takes the place of. -/
def replace (r : Registry) (id : String) (d : Dialect) : Option Dialect × Registry :=
  (displaced? (fold id) r.entries, r.register id d)

/-- The dialect of an id, or of the database that goes by that name. -/
def get (r : Registry) (id : String) : Except CompileError Dialect :=
  match r.find? id with
  | some d => .ok d
  | none =>
    match (Database.ofName? id).bind fun db => r.find? db.id with
    | some d => .ok d
    | none => .error (.unknownDialect id)

def ids (r : Registry) : List String := r.entries.map (·.1)

def builtIn : Registry :=
  Database.all.foldl (fun r db => r.register db.id db.dialect) empty

def compile (r : Registry) (id : String) (o : Options) (s : Select) :
    Except CompileError Command := do
  let d ← r.get id
  (s.compile d o).mapError .fault

end Registry

end SelectCompiler
