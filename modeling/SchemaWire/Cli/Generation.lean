import SchemaWire.Cli.Arguments
import SchemaWire.Cli.CommandError
import SchemaWire.Diff.Report
import SchemaWire.Document.OfYaml
import SchemaWire.Generate

/-!
What `generate` and `validate` do. Both read a schema and generate its module; `generate` then
writes it, or compares it with what is there. Nothing is written before everything else has
succeeded.
-/
namespace SchemaWire.Cli

open Files (FileError)

/-- What commands depend on besides files: the programs that can format code, and how reports are
marked. -/
structure Surroundings where
  programs : Programs
  style : Diff.Style

/-- What `generate` did. -/
inductive Outcome where
  /-- The code is to be shown. -/
  | printed (code : String)
  | written (path : String)
  /-- The file is as it would be generated. -/
  | upToDate (path : String)
  /-- The file differs from what would be generated. -/
  | stale (path report : String)
deriving DecidableEq, Repr

/-- The name of the configuration file in the working directory. -/
def configName : String := "tswire.toml"

variable {m : Type → Type} [Monad m] [Files.Access m]

/-- The result of an access to files, its fault explained. -/
def orFail {α : Type} (explain : FileError → CommandError) (access : m (Except FileError α)) :
    ExceptT CommandError m α := do
  match ← (liftM access : ExceptT CommandError m (Except FileError α)) with
  | .ok value => return value
  | .error fault => throw (explain fault)

def loadConfig (path : String) : ExceptT CommandError m Config := do
  let text ← orFail (.unreadableConfig path) (Files.Access.readText path)
  match Config.ofFile? path text with
  | some config => return config
  | none => throw (.malformedConfig path)

/-- The configuration of the given file, or of the one in the working directory, if there is
one. -/
def findConfig (explicit : Option String) : ExceptT CommandError m Config := do
  match explicit with
  | some path => loadConfig path
  | none =>
      if ← (liftM (Files.Access.pathExists configName : m Bool) : ExceptT CommandError m Bool) then
        loadConfig configName
      else return .default

def loadSchema (path : String) : ExceptT CommandError m SchemaDocument := do
  let text ← orFail (.unreadableSchema path) (Files.Access.readText path)
  match SchemaDocument.ofText (SchemaFormat.ofPath path) text with
  | .ok document => return document
  | .error fault => throw (.malformedSchema path fault)

def generateFrom (path : String) : ExceptT CommandError m Generated := do
  match (← loadSchema path).generate with
  | .ok generated => return generated
  | .error fault => throw (.notGenerated path fault)

/-- The code as it is to be written: formatted, if that is asked for. -/
def finishCode (surroundings : Surroundings) (config : FormatterConfig) (isAsked : Bool)
    (code : String) : Except CommandError String :=
  if isAsked || config.isEnabled then
    (config.format surroundings.programs code).mapError .notFormatted
  else .ok code

/-- The text of a file that need not be there; then it counts as empty. -/
def currentText (path : String) : ExceptT CommandError m String := do
  match ← (liftM (Files.Access.readText path : m _) : ExceptT CommandError m _) with
  | .ok text => return text
  | .error .notFound => return ""
  | .error fault => throw (.unreadableOutput path fault)

/-- Compares a file with the code that would be written to it. -/
def checkOutput (style : Diff.Style) (path code : String) : ExceptT CommandError m Outcome := do
  let current ← currentText path
  if current = code then return .upToDate path
  else return .stale path (Diff.report style path current code)

/-- Writes the code to a file, whose directory is made if it is not there. -/
def writeOutput (path code : String) : ExceptT CommandError m Outcome := do
  match Files.parent? path with
  | none | some "" => pure ()
  | some directory =>
      orFail (.noDirectory directory) (Files.Access.makeDirectories directory)
  orFail (.unwritable path) (Files.Access.writeText path code)
  return .written path

/-- Generates a module and writes it, shows it or compares it. Options win over the
configuration. -/
def generate (surroundings : Surroundings) (options : GenerateOptions) :
    ExceptT CommandError m Outcome := do
  let config ← findConfig options.config
  match options.schema <|> config.schema with
  | none => throw .noSchema
  | some schema =>
      let generated ← generateFrom schema
      let code ← ExceptT.mk (pure
        (finishCode surroundings config.formatter options.format generated.code))
      match options.out <|> config.output, options.check with
      | none, true => throw .noOutput
      | none, false => return .printed code
      | some path, true => checkOutput surroundings.style path code
      | some path, false => writeOutput path code

/-- Generates a module and counts what it holds. -/
def validate (schema : String) : ExceptT CommandError m String := do
  let generated ← generateFrom schema
  return schema ++ ": " ++ toString generated.models ++ " models, " ++
    toString generated.enums ++ " enums, " ++ toString generated.routes ++ " routes"

end SchemaWire.Cli
