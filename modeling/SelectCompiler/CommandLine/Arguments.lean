/-!
The arguments of the command line: global options, a command, and the options of the command. Flags
may be clustered, and the value of an option may follow it in the same argument.
-/

namespace SelectCompiler.CommandLine

structure OptionSpec where
  short : Char
  long : String
  takesValue : Bool
deriving DecidableEq

/-- What one argument, or an option with its value, amounts to. -/
inductive Event where
  | flag (option : OptionSpec)
  | value (option : OptionSpec) (text : String)
  | positional (text : String)
  | invalid
deriving DecidableEq

/-- The flags of a cluster. An option that takes a value takes the rest of the cluster, behind an
equals sign or not; if there is none it waits for the next argument. -/
def clusterEvents (specs : List OptionSpec) : List Char → List Event × Option OptionSpec
  | [] => ([], none)
  | c :: cs =>
    match specs.find? (·.short == c) with
    | none => ([.invalid], none)
    | some option =>
      if option.takesValue then
        match cs with
        | [] => ([], some option)
        | '=' :: cs => ([.value option (String.ofList cs)], none)
        | cs => ([.value option (String.ofList cs)], none)
      else
        let (events, pending) := clusterEvents specs cs
        (.flag option :: events, pending)

/-- A long option, with its value behind an equals sign or in the next argument. -/
def longEvents (specs : List OptionSpec) (cs : List Char) : List Event × Option OptionSpec :=
  let (name, value) := cs.span (· != '=')
  match specs.find? (·.long == String.ofList name), value with
  | none, _ => ([.invalid], none)
  | some option, _ :: value =>
    (if option.takesValue then [.value option (String.ofList value)] else [.invalid], none)
  | some option, [] => if option.takesValue then ([], some option) else ([.flag option], none)

def events (specs : List OptionSpec) (stops : Bool) :
    Option OptionSpec → List String → List Event × List String
  | none, [] => ([], [])
  | some _, [] => ([.invalid], [])
  | pending, arg :: args =>
    match pending, arg.toList with
    | some _, '-' :: _ :: _ => ([.invalid], [])
    | some option, _ =>
      let (more, rest) := events specs stops none args
      (.value option arg :: more, rest)
    | none, ['-', '-'] => (if stops then [.invalid] else args.map .positional, [])
    | none, '-' :: '-' :: cs =>
      let (found, pending) := longEvents specs cs
      let (more, rest) := events specs stops pending args
      (found ++ more, rest)
    | none, '-' :: c :: cs =>
      let (found, pending) := clusterEvents specs (c :: cs)
      let (more, rest) := events specs stops pending args
      (found ++ more, rest)
    | none, _ =>
      if stops then ([.positional arg], args)
      else
        let (more, rest) := events specs stops none args
        (.positional arg :: more, rest)

/-! ### Invocations -/

inductive Format where
  | sql
  | json
deriving DecidableEq

def Format.ofName? : String → Option Format
  | "sql" => some .sql
  | "json" => some .json
  | _ => none

/-- A query to compile: a file, or `-` for standard input. -/
structure CompileRequest where
  input : String
  dialect : Option String := none
  format : Format := .sql
  bindLiterals : Bool := false
deriving DecidableEq

inductive Action where
  | version
  | dialects
  | compile (request : CompileRequest)
deriving DecidableEq

structure Invocation where
  config : Option String
  action : Action
deriving DecidableEq

def configOption : OptionSpec := ⟨'c', "config", true⟩
def verboseOption : OptionSpec := ⟨'v', "verbose", false⟩
def versionOption : OptionSpec := ⟨'V', "version", false⟩
def dialectOption : OptionSpec := ⟨'d', "dialect", true⟩
def formatOption : OptionSpec := ⟨'f', "format", true⟩
def parameterizeOption : OptionSpec := ⟨'p', "parameterize", false⟩

def globalOptions : List OptionSpec := [configOption, verboseOption, versionOption]

def compileOptions : List OptionSpec := [dialectOption, formatOption, parameterizeOption]

/-- What the options of `compile` have said so far. -/
structure CompileSettings where
  input : Option String := none
  dialect : Option String := none
  format : Option Format := none
  bindLiterals : Bool := false

/-- Nothing may be given twice. -/
def CompileSettings.add (s : CompileSettings) (event : Event) : Option CompileSettings :=
  match event with
  | .positional text => if s.input.isSome then none else some { s with input := some text }
  | .value option text =>
    if option = dialectOption then
      if s.dialect.isSome then none else some { s with dialect := some text }
    else if option = formatOption then
      if s.format.isSome then none
      else (Format.ofName? text).map fun format => { s with format := some format }
    else none
  | .flag _ => if s.bindLiterals then none else some { s with bindLiterals := true }
  | .invalid => none

def compileRequest? (args : List String) : Option CompileRequest := do
  let settings ← (events compileOptions false none args).1.foldlM CompileSettings.add {}
  let input ← settings.input
  return {
    input
    dialect := settings.dialect
    format := settings.format.getD .sql
    bindLiterals := settings.bindLiterals }

def action? (command : String) (args : List String) : Option Action :=
  match command with
  | "compile" => (compileRequest? args).map .compile
  | "dialects" => if (events [] false none args).1.isEmpty then some .dialects else none
  | _ => none

/-- Goes through the global events. A configuration given here comes before one of the
environment; neither may be empty. -/
def invocation? (environment : Option String) (args : List String) :
    (config : Option String) → (verbose : Bool) → List Event → Option Invocation
  | _, _, [] => none
  | config, verbose, event :: rest =>
    match event with
    | .flag option =>
      if option = versionOption then some ⟨config, .version⟩
      else if verbose then none
      else invocation? environment args config true rest
    | .value _ text =>
      if config.isSome || text == "" then none
      else invocation? environment args (some text) verbose rest
    | .positional command => do
      let config := config <|> environment
      if config = some "" then none
      return ⟨config, ← action? command args⟩
    | .invalid => none

/-- The invocation that arguments ask for; nothing if they are not understood. -/
def Invocation.ofArguments? (environment : Option String) (args : List String) :
    Option Invocation :=
  let (found, rest) := events globalOptions true none args
  invocation? environment rest none false found

end SelectCompiler.CommandLine
