/-!
Access to files, as far as the program needs it. What the program does is written once over any
such access: the file system of the machine, or a file system that is a value.
-/
namespace SchemaWire.Files

inductive FileError where
  | notFound
  | alreadyExists
  | notDirectory
  | isDirectory
  | other (description : String)
deriving DecidableEq, Repr

def FileError.message : FileError → String
  | notFound => "No such file or directory (os error 2)"
  | alreadyExists => "File exists (os error 17)"
  | notDirectory => "Not a directory (os error 20)"
  | isDirectory => "Is a directory (os error 21)"
  | other description => description

class Access (m : Type → Type) where
  /-- The text of a file. -/
  readText : String → m (Except FileError String)
  /-- Makes the text the content of a file, which need not be there before. -/
  writeText : String → String → m (Except FileError Unit)
  /-- Whether there is a file or directory. -/
  pathExists : String → m Bool
  /-- Makes a directory and those around it that are not there. -/
  makeDirectories : String → m (Except FileError Unit)

end SchemaWire.Files
