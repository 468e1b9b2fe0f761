import SchemaWire.Files.Path
import SchemaWire.Toml.Reader

/-!
The configuration file: where the schema and the generated file are, and how generated code is
formatted. Keys that have no meaning are refused. Relative paths count from the directory of the
configuration file.
-/
namespace SchemaWire

/-- How generated code is formatted: whether it always is, and the program and the arguments
before the path of the file. -/
structure FormatterConfig where
  isEnabled : Bool
  command : String
  args : List String
deriving DecidableEq, Repr

namespace FormatterConfig

/-- The formatter that is used unless the configuration says otherwise. -/
def default : FormatterConfig :=
  ⟨false, "prettier", ["--trailing-comma", "es5", "--write"]⟩

def text? : Toml.Value → Option String
  | .string text => some text
  | _ => none

/-- Changes the setting under a key. -/
def set? (config : FormatterConfig) (key : String) (value : Toml.Value) :
    Option FormatterConfig :=
  match key, value with
  | "enabled", .bool isEnabled => some { config with isEnabled }
  | "command", .string command => some { config with command }
  | "args", .array items => (items.mapM text?).map fun args => { config with args }
  | _, _ => none

/-- The keys in the order in which an array gives their values. -/
def keys : List String :=
  ["enabled", "command", "args"]

/-- The settings of a table, or of an array of values in order, of which the last may be missing.
Items beyond them are ignored. -/
def ofToml? : Toml.Value → Option FormatterConfig
  | .table _ entries =>
      entries.foldlM (fun config entry => config.set? entry.1 entry.2) default
  | .array items =>
      (keys.zip items).foldlM (fun config entry => config.set? entry.1 entry.2) default
  | _ => none

end FormatterConfig

structure Config where
  schema : Option String
  output : Option String
  formatter : FormatterConfig
deriving DecidableEq, Repr

namespace Config

/-- The configuration without a file. -/
def default : Config :=
  ⟨none, none, .default⟩

/-- Changes the setting under a key. -/
def set? (config : Config) (key : String) (value : Toml.Value) : Option Config :=
  match key, value with
  | "schema", .string schema => some { config with schema := some schema }
  | "output", .string output => some { config with output := some output }
  | "format", value =>
      (FormatterConfig.ofToml? value).map fun formatter => { config with formatter }
  | _, _ => none

def ofText? (text : String) : Option Config := do
  let entries ← Toml.read? text
  entries.foldlM (fun config entry => config.set? entry.1 entry.2) default

/-- The configuration with its paths seen from where the given directory is. -/
def resolved (config : Config) (directory : String) : Config :=
  { config with
    schema := config.schema.map (Files.join directory)
    output := config.output.map (Files.join directory) }

def ofFile? (path text : String) : Option Config :=
  (ofText? text).map fun config => config.resolved ((Files.parent? path).getD "")

end Config

end SchemaWire
