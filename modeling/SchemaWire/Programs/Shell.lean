/-!
The scripts of the shell `sh`: simple commands in sequence, with their redirections. The file that
is formatted is `$0`.
-/
namespace SchemaWire.Programs

/-- Where output goes. -/
inductive Target where
  | nowhere
  | errors
  | file (isAppended : Bool)
deriving DecidableEq, Repr

/-- What stands between two commands: when the second one runs. -/
inductive Link where
  | always
  | onSuccess
  | onFailure
deriving DecidableEq, Repr

/-- A part of a script. -/
inductive ShellToken where
  | word (text : String)
  | link (link : Link)
  /-- A redirection of output, or of errors, whose target is the next word. -/
  | redirect (ofErrors isAppended : Bool)
  /-- A redirection of output to where errors go. -/
  | toErrors
  /-- A redirection of errors to where output goes. -/
  | toOutput
deriving DecidableEq, Repr

/-- The name by which scripts know the file. -/
def scriptFile : String := "/tmp/formatted.ts"

/-- Whether a character ends a word that is not quoted. -/
def endsShellWord (c : Char) : Bool :=
  [' ', '\t', '\n', ';', '&', '|', '<', '>', '(', ')'].contains c

/-- The rest of a word, given its beginning in reverse and the quotation mark that is open. The
steps bound the number of characters. -/
def shellWordFrom : (steps : Nat) → Option Char → List Char → List Char →
    Option (String × List Char)
  | 0, _, _, _ => none
  | steps + 1, quote, read, text =>
      let file := scriptFile.toList.reverse
      match quote, text with
      | none, [] => some (String.ofList read.reverse, [])
      | some _, [] => none
      | some '\'', c :: rest =>
          if c == '\'' then shellWordFrom steps none read rest
          else shellWordFrom steps quote (c :: read) rest
      | _, '$' :: '\x7b' :: '0' :: '\x7d' :: rest => shellWordFrom steps quote (file ++ read) rest
      | _, '$' :: '0' :: rest => shellWordFrom steps quote (file ++ read) rest
      | _, '$' :: '?' :: _ => none
      | none, '\\' :: c :: rest => shellWordFrom steps none (c :: read) rest
      | some _, '\\' :: c :: rest =>
          if ['"', '\\', '$', '\x60'].contains c then shellWordFrom steps quote (c :: read) rest
          else shellWordFrom steps quote (c :: '\\' :: read) rest
      | none, c :: rest =>
          if c == '"' || c == '\'' then shellWordFrom steps (some c) read rest
          else if endsShellWord c then some (String.ofList read.reverse, c :: rest)
          else shellWordFrom steps none (c :: read) rest
      | some mark, c :: rest =>
          if c == mark then shellWordFrom steps none read rest
          else shellWordFrom steps quote (c :: read) rest

/-- The token at the start of a script, and what follows it. -/
def shellToken? : List Char → Option (ShellToken × List Char)
  | ';' :: rest | '\n' :: rest => some (.link .always, rest)
  | '&' :: '&' :: rest => some (.link .onSuccess, rest)
  | '|' :: '|' :: rest => some (.link .onFailure, rest)
  | '>' :: '&' :: '2' :: rest | '1' :: '>' :: '&' :: '2' :: rest => some (.toErrors, rest)
  | '2' :: '>' :: '&' :: '1' :: rest => some (.toOutput, rest)
  | '2' :: '>' :: '>' :: rest => some (.redirect true true, rest)
  | '2' :: '>' :: rest => some (.redirect true false, rest)
  | '>' :: '>' :: rest | '1' :: '>' :: '>' :: rest => some (.redirect false true, rest)
  | '>' :: rest | '1' :: '>' :: rest => some (.redirect false false, rest)
  | text =>
      if text.head?.any endsShellWord then none
      else (shellWordFrom (text.length + 1) none [] text).map fun (word, rest) =>
        (.word word, rest)

/-- The tokens of a script. The steps bound their number. -/
def shellTokens? : (steps : Nat) → List Char → Option (List ShellToken)
  | 0, _ => none
  | steps + 1, text =>
      match text.dropWhile fun c => c == ' ' || c == '\t' with
      | [] => some []
      | text => do
          let (token, rest) ← shellToken? text
          let tokens ← shellTokens? steps rest
          return token :: tokens

/-- A command: its words, and where its output and errors go. -/
structure ShellCommand where
  words : List String
  output : Target
  errors : Target
deriving DecidableEq, Repr

def Target.ofName (name : String) (isAppended : Bool) : Target :=
  if name = scriptFile then file isAppended else nowhere

/-- The commands of tokens, each with the link before it; the current one is given. -/
def shellCommands? : Link → ShellCommand → List ShellToken → Option (List (Link × ShellCommand))
  | link, command, [] => some [(link, command)]
  | link, command, .word text :: rest =>
      shellCommands? link { command with words := command.words ++ [text] } rest
  | link, command, .toErrors :: rest => shellCommands? link { command with output := .errors } rest
  | link, command, .toOutput :: rest =>
      shellCommands? link { command with errors := command.output } rest
  | link, command, .redirect ofErrors isAppended :: .word name :: rest =>
      let target := Target.ofName name isAppended
      shellCommands? link
        (if ofErrors then { command with errors := target } else { command with output := target })
        rest
  | _, _, .redirect _ _ :: _ => none
  | link, command, .link next :: rest => do
      let commands ← shellCommands? next ⟨[], .nowhere, .errors⟩ rest
      return (link, command) :: commands

end SchemaWire.Programs
