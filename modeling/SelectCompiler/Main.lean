import SelectCompiler.CommandLine.Run

/-!
The program itself: gathers what a run may read, and prints what the run yields.
-/

namespace SelectCompiler.CommandLine

def readFile (path : String) : IO (String × Except ReadFailure String) := do
  try
    return (path, .ok (← IO.FS.readFile path))
  catch
    | .noFileOrDirectory .. => return (path, .error .notFound)
    | .inappropriateType _ code _ =>
      return (path, .error (if code = 21 then .isDirectory else .notDirectory))
    | .invalidArgument _ 36 _ => return (path, .error .nameTooLong)
    | error => return (path, .error (.other (toString error)))

/-- The place of the configuration of the user: in the directory set aside for it if that has an
absolute path, or else in the home directory. -/
def userConfigPath : IO (Option String) := do
  match (← IO.getEnv "XDG_CONFIG_HOME").filter (·.startsWith "/"), ← IO.getEnv "HOME" with
  | some dir, _ => return some (dir ++ "/relsql/config.toml")
  | none, some home => return some (home ++ "/.config/relsql/config.toml")
  | none, none => return none

/-- The files that an invocation may read. -/
def wantedPaths (userConfig : Option String) (invocation : Invocation) : List String :=
  (match invocation.config with
    | some path => [path]
    | none => Config.localPath :: userConfig.toList) ++
  (match invocation.action with
    | .compile request => if request.input = "-" then [] else [request.input]
    | _ => [])

def wantsInput (invocation : Invocation) : Bool :=
  match invocation.action with
  | .compile request => request.input == "-"
  | _ => false

end SelectCompiler.CommandLine

open SelectCompiler.CommandLine in
def main (args : List String) : IO UInt32 := do
  let environment ← IO.getEnv "RELSQL_CONFIG"
  let userConfig ← userConfigPath
  let mut files := []
  let mut stdin := ""
  if let some invocation := Invocation.ofArguments? environment args then
    files ← (wantedPaths userConfig invocation).mapM readFile
    if wantsInput invocation then stdin ← (← IO.getStdin).readToEnd
  let world : World :=
    { read := fun path => (files.lookup path).getD (.error .notFound), stdin, userConfig }
  let outcome := run world environment args
  IO.print outcome.stdout
  if let some error := outcome.error then IO.eprintln ("Error: " ++ error)
  return outcome.code.toUInt32
