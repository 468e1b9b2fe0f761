import SchemaWire.Diff.Hunk
import SchemaWire.Text.Lines

/-!
Reports of what differs between the current text of a file and the one that would be generated.
Each shown line stands behind a sign: a minus if it would go, a plus if it would come, a space if
it stays.
-/
namespace SchemaWire.Diff

/-- The marks around parts of a report: before headings, removed and added lines, and after each
of them. -/
structure Style where
  heading : String
  removed : String
  added : String
  reset : String
deriving DecidableEq, Repr

namespace Style

def plain : Style :=
  ⟨"", "", "", ""⟩

/-- Bold headings, red and green lines, for a terminal. -/
def colored : Style :=
  ⟨"\x1b[1m", "\x1b[31m", "\x1b[32m", "\x1b[0m"⟩

end Style

inductive LineKind where
  | kept
  | removed
  | added
deriving DecidableEq, Repr

namespace LineKind

def sign : LineKind → String
  | kept => " "
  | removed => "-"
  | added => "+"

def mark (style : Style) : LineKind → String
  | kept => ""
  | removed => style.removed
  | added => style.added

/-- The mark after a line. -/
def reset (style : Style) : LineKind → String
  | kept => ""
  | removed | added => style.reset

end LineKind

def endLine (line : String) : String :=
  match line.toList.getLast? with
  | some '\n' | some '\r' => line
  | _ => line ++ "\n"

def renderLine (style : Style) (kind : LineKind) (line : String) : String :=
  kind.mark style ++ kind.sign ++ endLine line ++ kind.reset style

/-- The shown lines of a piece: those that go before those that come. -/
def Piece.shown : Piece String → List (LineKind × String)
  | same lines => lines.map fun line => (.kept, line)
  | changed removed added =>
      removed.map (fun line => (.removed, line)) ++ added.map fun line => (.added, line)

def renderHunk (style : Style) (hunk : Hunk String) : String :=
  String.join ((hunk.flatMap Piece.shown).map fun (kind, line) => renderLine style kind line)

def renderHeading (style : Style) (sign label suffix : String) : String :=
  style.heading ++ sign ++ " " ++ label ++ " " ++ suffix ++ style.reset ++ "\n"

/-- The line between two hunks. -/
def separator : String := "...\n"

/-- The number of lines around a change that are shown with it. -/
def context : Nat := 3

def textHunks (current generated : String) : List (Hunk String) :=
  hunks context (align (Text.terminatedLines current) (Text.terminatedLines generated))

def report (style : Style) (label current generated : String) : String :=
  renderHeading style "---" label "(current)" ++ renderHeading style "+++" label "(generated)" ++
    String.intercalate separator ((textHunks current generated).map (renderHunk style))

end SchemaWire.Diff
