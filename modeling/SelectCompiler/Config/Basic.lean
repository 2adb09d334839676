import SelectCompiler.Registry
import SelectCompiler.Text.Blank
import SelectCompiler.Toml.Reader

/-!
The configuration: the dialect to use when none is asked for, whether constants are bound, and the
schema of SQL Server.
-/

namespace SelectCompiler

structure Config where
  dialect : String := "sqlserver"
  bindLiterals : Bool := false
  defaultSchema : String := Database.standardSchema
deriving DecidableEq

inductive ConfigError where
  /-- The text is not TOML, or an entry has the wrong type. -/
  | malformed
  | emptySchema
deriving DecidableEq

def ConfigError.message : ConfigError → String
  | malformed => "Configuration error: TOML parse error"
  | emptySchema => "Configuration error: sqlserver.default_schema must not be empty"

namespace Config

/-- The settings of a section by name, or by position where the section is an array. A date or time
counts as a section that sets nothing. -/
def section? (keys : List String) : Option Toml.Item → Option (List (Option Toml.Item))
  | none | some .moment => some (keys.map fun _ => none)
  | some (.table _ entries) => some (keys.map (Toml.Entries.get? entries))
  | some (.array items) => some (keys.zipIdx.map fun (_, i) => items[i]?)
  | some _ => none

def text? (default : String) : Option Toml.Item → Option String
  | none => some default
  | some (.text s) => some s
  | some _ => none

def bool? (default : Bool) : Option Toml.Item → Option Bool
  | none => some default
  | some (.bool b) => some b
  | some _ => none

/-- The configuration that a document holds; entries it does not know do not matter. -/
def ofEntries? (entries : Toml.Entries) : Option Config := do
  match ← section? ["dialect", "parameterize_literals"] (entries.get? "compiler"),
    ← section? ["default_schema"] (entries.get? "sqlserver") with
  | [dialect, bindLiterals], [defaultSchema] =>
    return {
      dialect := ← text? ({} : Config).dialect dialect
      bindLiterals := ← bool? ({} : Config).bindLiterals bindLiterals
      defaultSchema := ← text? ({} : Config).defaultSchema defaultSchema }
  | _, _ => none

/-- Reads a configuration. The schema must not be blank. -/
def ofText (text : String) : Except ConfigError Config :=
  match (Toml.ofText? text).bind ofEntries? with
  | none => .error .malformed
  | some config => if isBlankText config.defaultSchema then .error .emptySchema else .ok config

def options (config : Config) : Options := ⟨config.bindLiterals⟩

/-- All databases, SQL Server with the configured schema. -/
def registry (config : Config) : Registry :=
  Registry.builtIn.register Database.sqlServer.id (.sqlServer config.defaultSchema)

end Config

end SelectCompiler
