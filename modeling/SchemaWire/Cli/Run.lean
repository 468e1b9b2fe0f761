import SchemaWire.Cli.Generation
import SchemaWire.Cli.Help

/-!
Running a command line: what is shown, and with which code the program exits.
-/
namespace SchemaWire.Cli

/-- How the program answers. -/
structure Reply where
  code : Nat
  output : String
  errors : String
deriving DecidableEq, Repr

namespace Reply

def success (output : String) : Reply :=
  ⟨0, output, ""⟩

def failure (message : String) : Reply :=
  ⟨1, "", message ++ "\n"⟩

def misuse : Reply :=
  ⟨2, "", misuseText⟩

/-- The reply that tells what `generate` did. -/
def ofOutcome : Outcome → Reply
  | .printed code => success code
  | .written path => success ("wrote " ++ path ++ "\n")
  | .upToDate path => success (path ++ " is up to date\n")
  | .stale path report => ⟨1, report, path ++ " is out of date; run `tswire generate`\n"⟩

def ofResult {α : Type} (reply : α → Reply) : Except CommandError α → Reply
  | .ok value => reply value
  | .error fault => failure fault.message

end Reply

variable {m : Type → Type} [Monad m] [Files.Access m]

def runCommand (surroundings : Surroundings) : Command → m Reply
  | .overview => return .success (HelpTopic.program.text ++ "\n")
  | .help topic => return .success topic.text
  | .version => return .success versionText
  | .generate options => do
      return Reply.ofResult Reply.ofOutcome (← (generate surroundings options).run)
  | .validate schema => do
      return Reply.ofResult (fun summary => .success (summary ++ "\n")) (← (validate schema).run)

def run (surroundings : Surroundings) (args : List String) : m Reply :=
  match Command.ofArgs args with
  | some command => runCommand surroundings command
  | none => return .misuse

end SchemaWire.Cli
