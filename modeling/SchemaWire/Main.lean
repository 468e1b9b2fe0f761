import SchemaWire.Cli.Run
import SchemaWire.Programs.Known

/-!
The program on the machine.
-/
namespace SchemaWire

open Files (FileError)

/-- What the machine says about a fault. -/
def fileErrorOf : IO.Error → FileError
  | .noFileOrDirectory .. => .notFound
  | .alreadyExists .. => .alreadyExists
  | .inappropriateType .. => .isDirectory
  | fault => .other (toString fault)

/-- The result of an access to the machine's files. -/
def accessing {α : Type} (access : IO α) : IO (Except FileError α) := do
  match ← access.toBaseIO with
  | .ok value => return .ok value
  | .error fault => return .error (fileErrorOf fault)

instance : Files.Access IO where
  readText path := accessing (IO.FS.readFile path)
  writeText path text := accessing (IO.FS.writeFile path text)
  pathExists path := do
    match ← accessing (IO.FS.readFile path) with
    | .error .notFound => return false
    | _ => return true
  makeDirectories path := accessing (IO.FS.createDirAll path)

end SchemaWire

open SchemaWire in
/-- Runs the command line, with colours on a terminal. -/
def main (args : List String) : IO UInt32 := do
  let output ← IO.getStdout
  let style := if ← output.isTty then Diff.Style.colored else Diff.Style.plain
  let reply ← Cli.run ⟨Programs.known, style⟩ args
  IO.print reply.output
  IO.eprint reply.errors
  return reply.code.toUInt32
