/-!
What a run of the program finds around it: files by path, standard input, and the configuration of
the user.
-/

namespace SelectCompiler.CommandLine

inductive ReadFailure where
  | notFound
  | notDirectory
  | isDirectory
  | nameTooLong
  | other (message : String)
deriving DecidableEq

def ReadFailure.message : ReadFailure → String
  | notFound => "No such file or directory (os error 2)"
  | notDirectory => "Not a directory (os error 20)"
  | isDirectory => "Is a directory (os error 21)"
  | nameTooLong => "File name too long (os error 36)"
  | other message => message

structure World where
  read : String → Except ReadFailure String
  stdin : String
  /-- The path of the configuration of the user, if the user has a place for one. -/
  userConfig : Option String

def World.has (w : World) (path : String) : Bool :=
  match w.read path with
  | .ok _ | .error .isDirectory => true
  | .error _ => false

/-! ### Trees of files -/

/-- The names that lead from the root to a file or directory. -/
abbrev Place := List String

/-- Files by their places, and the directory where relative paths start. -/
structure FileTree where
  files : List (Place × String)
  workingDirectory : Place

namespace FileTree

/-- Whether a place is a directory: one with something in it, or the working directory. -/
def isDirectory (t : FileTree) (place : Place) : Bool :=
  t.files.any (fun file => place.isPrefixOf file.1 && place != file.1) ||
    place.isPrefixOf t.workingDirectory

/-- What is at a place; a directory cannot be read. -/
def content (t : FileTree) (place : Place) : Except ReadFailure String :=
  match t.files.find? (·.1 == place) with
  | some (_, content) => .ok content
  | none => .error (if t.isDirectory place then .isDirectory else .notFound)

def nameLimit : Nat := 255

def pathLimit : Nat := 4095

/-- Follows names from a place. Each step, even one that stays or goes back, starts in a directory;
the root is above itself. -/
def follow (t : FileTree) : Place → List String → Except ReadFailure Place
  | here, [] => .ok here
  | here, name :: names =>
    match t.content here with
    | .ok _ => .error .notDirectory
    | .error .isDirectory =>
      if name = "" ∨ name = "." then t.follow here names
      else if name = ".." then t.follow here.dropLast names
      else if nameLimit < name.utf8ByteSize then .error .nameTooLong
      else t.follow (here ++ [name]) names
    | .error failure => .error failure

/-- Reads the file at a path, which starts at the root if it starts with a slash. -/
def read (t : FileTree) (path : String) : Except ReadFailure String := do
  if path == "" then throw .notFound
  if pathLimit < path.utf8ByteSize then throw .nameTooLong
  let start := if path.startsWith "/" then [] else t.workingDirectory
  t.content (← t.follow start (path.splitOn "/"))

end FileTree

end SelectCompiler.CommandLine
