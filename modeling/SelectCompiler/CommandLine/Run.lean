import SelectCompiler.CommandLine.Arguments
import SelectCompiler.CommandLine.Files
import SelectCompiler.Config.Basic
import SelectCompiler.Json.Printer
import SelectCompiler.Wire.Decode

/-!
A run of the program: the arguments and what is found around it determine what is printed and how
the run ends.
-/

namespace SelectCompiler

open CommandLine

inductive LoadError where
  | unread (failure : ReadFailure)
  | refused (error : ConfigError)
deriving DecidableEq

def LoadError.message : LoadError → String
  | unread failure => "IO error: " ++ failure.message
  | refused error => error.message

namespace Config

def loadFile (w : World) (path : String) : Except LoadError Config := do
  let text ← (w.read path).mapError .unread
  (ofText text).mapError .refused

def localPath : String := "relsql.toml"

/-- Loads the file that is asked for, or else the first of those in the working directory and of
the user; without any of them everything has its default. -/
def load (w : World) : Option String → Except LoadError Config
  | some path => loadFile w path
  | none =>
    match (localPath :: w.userConfig.toList).find? w.has with
    | some path => loadFile w path
    | none => .ok {}

end Config

namespace CommandLine

inductive RunError where
  | config (error : LoadError)
  | input (path : String) (failure : ReadFailure)
  | notATree
  | compile (error : CompileError)
deriving DecidableEq

/-- The whole chain of causes. -/
def RunError.message : RunError → String
  | config (.unread failure) => (LoadError.unread failure).message ++ ": " ++ failure.message
  | config error => error.message
  | input path failure => "reading " ++ path ++ ": " ++ failure.message
  | notATree => "parsing tree"
  | compile error => error.message

structure Outcome where
  code : Nat
  stdout : String
  error : Option String
deriving DecidableEq

def lines (ls : List String) : String := String.join (ls.map (· ++ "\n"))

def listing (config : Config) : String :=
  lines (config.registry.ids.map fun id => (if id = config.dialect then "* " else "  ") ++ id)

def bindingLine (position : Nat) (b : Binding) : String :=
  "  #" ++ toString position ++ " " ++ b.name.getD "-" ++ " = " ++ b.value.display ++ " (" ++
    b.type.name ++ ")"

def render : Format → Command → String
  | .json, c => lines [c.toJson.pretty]
  | .sql, c =>
    lines <| c.sql ::
      if c.parameters.isEmpty then []
      else "" :: "Bindings:" :: c.parameters.zipIdx.map fun (b, i) => bindingLine (i + 1) b

/-- Compiles the query of a request, for the configured dialect unless the request names one. -/
def compileRequest (w : World) (config : Config) (request : CompileRequest) :
    Except RunError String := do
  let text ← if request.input = "-" then pure w.stdin
    else (w.read request.input).mapError (.input request.input)
  match Select.ofText? text with
  | none => throw .notATree
  | some select =>
    let o : Options := { bindLiterals := config.bindLiterals || request.bindLiterals }
    let command ← (config.registry.compile (request.dialect.getD config.dialect) o select).mapError
      .compile
    return render request.format command

def versionText : String := "relsql 0.3.0"

def perform (w : World) (invocation : Invocation) : Except RunError String :=
  match invocation.action with
  | .version => .ok (lines [versionText])
  | .dialects => do
    let config ← (Config.load w invocation.config).mapError .config
    return listing config
  | .compile request => do
    let config ← (Config.load w invocation.config).mapError .config
    compileRequest w config request

/-- Arguments that are not understood end a run with 2, a failure ends it with 1. -/
def run (w : World) (environment : Option String) (args : List String) : Outcome :=
  match Invocation.ofArguments? environment args with
  | none => ⟨2, "", none⟩
  | some invocation =>
    match perform w invocation with
    | .ok text => ⟨0, text, none⟩
    | .error error => ⟨1, "", some error.message⟩

end CommandLine

end SelectCompiler
