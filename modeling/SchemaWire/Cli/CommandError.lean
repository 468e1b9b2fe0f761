import SchemaWire.Document.ReadError
import SchemaWire.Error
import SchemaWire.Files.Access
import SchemaWire.Formatter

/-!
Why a command fails.
-/
namespace SchemaWire.Cli

open Files (FileError)

inductive CommandError where
  | unreadableConfig (path : String) (fault : FileError)
  | malformedConfig (path : String)
  | noSchema
  | unreadableSchema (path : String) (fault : FileError)
  | malformedSchema (path : String) (fault : ReadError)
  | notGenerated (path : String) (fault : GenError)
  | notFormatted (fault : FormatFault)
  | noOutput
  | unreadableOutput (path : String) (fault : FileError)
  | noDirectory (path : String) (fault : FileError)
  | unwritable (path : String) (fault : FileError)

namespace CommandError

/-- An action that failed on a path, and why. -/
def failure (action path reason : String) : String :=
  "Failed to " ++ action ++ " " ++ path ++ ": " ++ reason

def message : CommandError → String
  | unreadableConfig path fault => failure "read" path fault.message
  | malformedConfig path => failure "parse" path "invalid configuration"
  | noSchema => "No schema given: pass --schema or set `schema` in tswire.toml"
  | unreadableSchema path fault => failure "read schema" path fault.message
  | malformedSchema path fault =>
      failure "parse schema" path
        ("invalid schema document" ++ (fault.message.elim "" fun text => ": " ++ text))
  | notGenerated path fault => "Generation failed for " ++ path ++ ": " ++ fault.message
  | notFormatted fault => fault.message
  | noOutput => "--check needs an output file: pass --out or set `output`"
  | unreadableOutput path fault => failure "read" path fault.message
  | noDirectory path fault => failure "create" path fault.message
  | unwritable path fault => failure "write" path fault.message

end CommandError

end SchemaWire.Cli
