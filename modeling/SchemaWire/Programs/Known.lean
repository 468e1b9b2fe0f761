import SchemaWire.Programs.LineEditor
import SchemaWire.Programs.Shell
import SchemaWire.Text.Numeral

/-!
The programs that can format code: the shell, which runs the commands of a script one after the
other, and what its scripts can run. No other programs are started.
-/
namespace SchemaWire.Programs

/-- What a script has done so far. -/
structure ShellState where
  status : Nat
  errors : String
  text : String
  hasExited : Bool

/-- Sends what a command wrote to a target. -/
def ShellState.send (state : ShellState) (target : Target) (written : String) : ShellState :=
  match target with
  | .nowhere => state
  | .errors => { state with errors := state.errors ++ written }
  | .file true => { state with text := state.text ++ written }
  | .file false => { state with text := written }

def statusOf (number : String) : Nat :=
  Text.natOf number.toList % 256

/-- What a command writes to its output and to errors, and the state after it. -/
def runWords (programs : Programs) (state : ShellState) :
    List String → String × String × ShellState
  | [] => ("", "", state)
  | ["exit"] => ("", "", { state with hasExited := true })
  | "exit" :: number :: _ => ("", "", { state with status := statusOf number, hasExited := true })
  | "echo" :: "-n" :: words => (String.intercalate " " words, "", { state with status := 0 })
  | "echo" :: words => (String.intercalate " " words ++ "\n", "", { state with status := 0 })
  | ":" :: _ => ("", "", { state with status := 0 })
  | "cat" :: [_] => (state.text, "", { state with status := 0 })
  | name :: args =>
      match programs name with
      | none => ("", "sh: 1: " ++ name ++ ": not found\n", { state with status := 127 })
      | some program =>
          let isOnFile := args.getLast? == some scriptFile
          let result := program (if isOnFile then args.dropLast else args) state.text
          let text := if isOnFile then result.text else state.text
          ("", result.errors, { state with status := result.status, text })

def Link.runsAfter (status : Nat) : Link → Bool
  | always => true
  | onSuccess => status = 0
  | onFailure => status ≠ 0

def runCommand (programs : Programs) (state : ShellState) (step : Link × ShellCommand) :
    ShellState :=
  if state.hasExited || !step.1.runsAfter state.status then state
  else
    let (output, errors, next) := runWords programs state step.2.words
    (next.send step.2.output output).send step.2.errors errors

/-- The shell, from which scripts can run the given programs. -/
def shell (programs : Programs) : Program := fun args text =>
  let script := do
    match args with
    | ["-c", script] =>
        let chars := script.toList
        shellCommands? .always ⟨[], .nowhere, .errors⟩ (← shellTokens? (chars.length + 1) chars)
    | _ => none
  match script with
  | some commands =>
      let state := commands.foldl (runCommand programs) ⟨0, "", text, false⟩
      ⟨state.status, state.errors, state.text⟩
  | none => ⟨2, "sh: 1: Syntax error", text⟩

example : shell (fun _ => none) ["-c", "echo '  oops  ' >&2; exit 3"] "x" =
    ⟨3, "  oops  \n", "x"⟩ := by
  decide +kernel

example : shell (fun _ => none) ["-c", "echo // >> \"$0\" && echo done"] "x\n" =
    ⟨0, "", "x\n//\n"⟩ := by
  decide +kernel

/-- The program that leaves everything as it is. -/
def succeed : Program := fun _ text =>
  ⟨0, "", text⟩

/-- The program that fails and leaves everything as it is. -/
def fail : Program := fun _ text =>
  ⟨1, "", text⟩

/-- The programs that scripts can run. -/
def ofScripts : Programs
  | "true" => some succeed
  | "false" => some fail
  | "sed" => some lineEditor
  | _ => none

/-- The programs that can format code. -/
def known : Programs
  | "sh" => some (shell ofScripts)
  | name => ofScripts name

end SchemaWire.Programs
