import SchemaWire.Formatter
import SchemaWire.Programs.Pattern
import SchemaWire.Text.Segments

/-!
The line editor `sed` with its commands for substitution and deletion.
-/
namespace SchemaWire.Programs

inductive LineAddress where
  | every
  | number (line : Nat)
  | last
  | matching (pattern : Pattern)
deriving DecidableEq, Repr

/-- A part of a replacement: a character, or all that the pattern covers. -/
inductive Replacement where
  | char (c : Char)
  | covered
deriving DecidableEq, Repr

inductive LineAction where
  | delete
  | substitute (pattern : Pattern) (replacement : List Replacement) (isGlobal : Bool)
deriving DecidableEq, Repr

structure LineCommand where
  address : LineAddress
  action : LineAction
deriving DecidableEq, Repr

structure EditedLine where
  number : Nat
  isLast : Bool
  text : List Char

namespace Replacement

def ofChars : List Char → List Replacement
  | '\\' :: 'n' :: rest => char '\n' :: ofChars rest
  | '\\' :: 't' :: rest => char '\t' :: ofChars rest
  | '\\' :: c :: rest => char c :: ofChars rest
  | '&' :: rest => covered :: ofChars rest
  | c :: rest => char c :: ofChars rest
  | [] => []

/-- The text that stands in place of what the pattern covers. -/
def expand (covering : List Char) (parts : List Replacement) : List Char :=
  parts.flatMap fun part =>
    match part with
    | char c => [c]
    | covered => covering

end Replacement

/-- Replaces what a pattern covers in the rest of a line, once or everywhere. The steps bound the
number of characters. -/
def substituteFrom (pattern : Pattern) (parts : List Replacement) (isGlobal : Bool) :
    (steps : Nat) → (isStart : Bool) → List Char → List Char
  | 0, _, text => text
  | steps + 1, isStart, text =>
      match pattern.matchAt? isStart text, text with
      | none, [] => []
      | none, c :: rest => c :: substituteFrom pattern parts isGlobal steps false rest
      | some count, text =>
          let replaced := Replacement.expand (text.take count) parts
          if !isGlobal then replaced ++ text.drop count
          else
            match count, text with
            | 0, c :: rest =>
                replaced ++ c :: substituteFrom pattern parts isGlobal steps false rest
            | 0, [] => replaced
            | _, _ =>
                replaced ++ substituteFrom pattern parts isGlobal steps false (text.drop count)

def LineAddress.selects (line : EditedLine) : LineAddress → Bool
  | every => true
  | number n => line.number = n
  | last => line.isLast
  | matching pattern =>
      (List.range (line.text.length + 1)).any fun start =>
        (pattern.matchAt? (start = 0) (line.text.drop start)).isSome

/-- The text of a line after commands, unless it is deleted. -/
def editLine : List LineCommand → EditedLine → Option (List Char)
  | [], line => some line.text
  | command :: rest, line =>
      if command.address.selects line then
        match command.action with
        | .delete => none
        | .substitute pattern parts isGlobal =>
            editLine rest { line with
              text := substituteFrom pattern parts isGlobal (line.text.length + 1) true line.text }
      else editLine rest line

/-- The characters up to a mark that has no backslash before it, and those after it. A backslash
before the mark itself is left out. -/
def untilMark? (mark : Char) : List Char → Option (List Char × List Char)
  | [] => none
  | '\\' :: c :: rest =>
      (untilMark? mark rest).map fun (text, rest) =>
        (if c == mark then c :: text else '\\' :: c :: text, rest)
  | c :: rest =>
      if c == mark then some ([], rest)
      else (untilMark? mark rest).map fun (text, rest) => (c :: text, rest)

def address? : List Char → Option (LineAddress × List Char)
  | '$' :: rest => some (.last, rest)
  | '/' :: rest => do
      let (text, rest) ← untilMark? '/' rest
      return (.matching (← Pattern.ofChars? text), rest)
  | text =>
      match text.takeWhile Char.isDigit with
      | [] => some (.every, text)
      | digits => some (.number (Text.natOf digits), text.dropWhile Char.isDigit)

def action? : List Char → Option (LineAction × List Char)
  | 'd' :: rest => some (.delete, rest)
  | 's' :: mark :: rest => do
      let (pattern, rest) ← untilMark? mark rest
      let (replacement, rest) ← untilMark? mark rest
      let isGlobal := rest.head? == some 'g'
      return (.substitute (← Pattern.ofChars? pattern) (Replacement.ofChars replacement) isGlobal,
        if isGlobal then rest.drop 1 else rest)
  | _ => none

/-- Whether a character stands between commands. -/
def isBetweenCommands (c : Char) : Bool :=
  c == ' ' || c == '\t' || c == ';' || c == '\n'

/-- The commands of a script. The steps bound their number. -/
def commands? : (steps : Nat) → List Char → Option (List LineCommand)
  | 0, _ => none
  | steps + 1, script =>
      match script.dropWhile isBetweenCommands with
      | [] => some []
      | script => do
          let (address, rest) ← address? script
          let (action, rest) ← action? (rest.dropWhile (· == ' '))
          if rest.head?.all isBetweenCommands then
            let commands ← commands? steps rest
            return ⟨address, action⟩ :: commands
          else none

/-- Edits all lines of a text. Whether the text ends with a line break stays as it is. -/
def editText (commands : List LineCommand) (text : String) : String :=
  let chars := text.toList
  let endsLine := chars.getLast? == some '\n'
  let lines := Text.segments '\n' (if endsLine then chars.dropLast else chars)
  let numbered := lines.zipIdx.map fun (line, index) =>
    EditedLine.mk (index + 1) (index + 1 = lines.length) line
  let edited := numbered.filterMap fun line =>
    (editLine commands line).map fun text =>
      if line.isLast && !endsLine then text else text ++ ['\n']
  if chars.isEmpty then "" else String.ofList edited.flatten

/-- How the editor is called: whether it changes the file, and its scripts. -/
structure EditorCall where
  inPlace : Bool
  scripts : List String

def EditorCall.ofArgs? : List String → EditorCall → Option EditorCall
  | [], call => some call
  | "-i" :: rest, call => ofArgs? rest { call with inPlace := true }
  | "--in-place" :: rest, call => ofArgs? rest { call with inPlace := true }
  | "-e" :: script :: rest, call => ofArgs? rest { call with scripts := call.scripts ++ [script] }
  | script :: rest, call =>
      if script.toList.head? == some '-' || !call.scripts.isEmpty then none
      else ofArgs? rest { call with scripts := [script] }

def lineEditor : Program := fun args text =>
  let edited := do
    let call ← EditorCall.ofArgs? args ⟨false, []⟩
    let script := (String.intercalate "\n" call.scripts).toList
    let commands ← if call.scripts.isEmpty then none else commands? (script.length + 1) script
    return if call.inPlace then editText commands text else text
  match edited with
  | some text => ⟨0, "", text⟩
  | none => ⟨1, "sed: unknown command", text⟩

example : lineEditor ["-i", "s/Org/Group/g; 1d"] "Org\nan Org\n" = ⟨0, "", "an Group\n"⟩ := by
  decide +kernel

end SchemaWire.Programs
