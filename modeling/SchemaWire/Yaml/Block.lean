import SchemaWire.Text.Numeral
import SchemaWire.Yaml.Cursor

/-!
Block scalars: the lines that are indented below a header. Literal scalars keep their line breaks,
folded ones join lines that are not indented further; the header says what becomes of the breaks
at the end.
-/
namespace SchemaWire.Yaml

/-- Whether the lines of a block scalar are kept or folded. -/
inductive BlockStyle where
  | literal
  | folded
deriving DecidableEq, Repr

/-- What becomes of the line breaks at the end: none is kept, one, or all. -/
inductive Chomping where
  | strip
  | clip
  | keep
deriving DecidableEq, Repr

/-- The header of a block scalar: what becomes of the breaks at the end, and how far its lines are
indented, if it says so. -/
structure BlockHeader where
  chomping : Chomping
  increment : Option Nat
deriving DecidableEq, Repr

def Chomping.ofSign? (c : Char) : Option Chomping :=
  if c == '-' then some strip else if c == '+' then some keep else none

namespace BlockHeader

/-- The header at the start of the characters, and how many of them it takes. The sign and the
digit may stand in either order; the digit is not zero. -/
def read? (chars : List Char) : Option (BlockHeader × Nat) :=
  let digit? (c : Char) : Option Nat := (Text.digitValue? 10 c)
  match chars with
  | [] => some (⟨.clip, none⟩, 0)
  | c :: rest =>
      match Chomping.ofSign? c, digit? c with
      | some chomping, _ =>
          match rest.head?.bind digit? with
          | some 0 => none
          | some digit => some (⟨chomping, some digit⟩, 2)
          | none => some (⟨chomping, none⟩, 1)
      | none, some 0 => none
      | none, some digit =>
          match rest.head?.bind Chomping.ofSign? with
          | some chomping => some (⟨chomping, some digit⟩, 2)
          | none => some (⟨.clip, some digit⟩, 1)
      | none, none => some (⟨.clip, none⟩, 0)

end BlockHeader

/-- The breaks of empty lines and the indentation of the line after them. -/
structure BlockGap where
  breaks : List Char
  indentation : Nat
  next : Cursor

/-- The place after the spaces that indent a line, at most up to a column. -/
def skipIndentation (limit : Option Nat) (cursor : Cursor) : Cursor :=
  let spaces := cursor.ahead.takeWhile (· == ' ')
  match limit with
  | none => cursor.advance spaces.length
  | some limit => cursor.advance (min spaces.length (limit - cursor.column))

/-- Whether a tab stands where a space of the indentation is expected. -/
def isTabAt (limit : Option Nat) (cursor : Cursor) : Bool :=
  cursor.isAt '\t' && limit.all (cursor.column < ·)

/-- Passes over empty lines. An unknown indentation becomes the greatest one of these lines and
the one after them, though not less than the floor. The steps bound the number of lines. -/
def blockGapFrom (floor : Nat) (limit : Option Nat) :
    (steps : Nat) → (deepest : Nat) → List Char → Cursor → Option BlockGap
  | 0, _, _, _ => none
  | steps + 1, deepest, breaks, cursor =>
      let cursor := skipIndentation limit cursor
      let deepest := max deepest cursor.column
      if isTabAt limit cursor then none
      else
        let finished : BlockGap := ⟨breaks.reverse, limit.getD (max deepest floor), cursor⟩
        match cursor.ahead with
        | [] => some finished
        | c :: _ =>
            if isBreak c then blockGapFrom floor limit steps deepest (c :: breaks) cursor.skip
            else some finished

/-- Passes over empty lines. -/
def blockGap? (floor : Nat) (limit : Option Nat) (cursor : Cursor) : Option BlockGap :=
  blockGapFrom floor limit (cursor.ahead.length + 1) 0 [] cursor

/-- A line of a block scalar without its indentation, its break, and the breaks of the empty lines
after it. -/
structure BlockLine where
  text : List Char
  lineBreak : List Char
  emptyLines : List Char
deriving Repr

namespace BlockLine

/-- Whether the line is indented further than its block. -/
def isIndented (line : BlockLine) : Bool :=
  line.text.head?.any isBlank

def breaks (line : BlockLine) : List Char :=
  line.lineBreak ++ line.emptyLines

/-- What stands between a line and the next one. -/
def join (style : BlockStyle) (line next : BlockLine) : List Char :=
  if style = .folded && !line.isIndented && !next.isIndented then foldBreaks line.breaks
  else line.breaks

/-- What is left of the breaks after the last line. -/
def chomp (chomping : Chomping) (line : BlockLine) : List Char :=
  match chomping with
  | .strip => []
  | .clip => line.lineBreak
  | .keep => line.breaks

def textOf (style : BlockStyle) (chomping : Chomping) : List BlockLine → List Char
  | [] => []
  | [line] => line.text ++ line.chomp chomping
  | line :: next :: rest =>
      line.text ++ line.join style next ++ textOf style chomping (next :: rest)

end BlockLine

/-- The lines of a block scalar at its indentation, and the place after them. The steps bound
their number. -/
def blockLinesFrom (indentation : Nat) :
    (steps : Nat) → Cursor → Option (List BlockLine × Cursor)
  | 0, _ => none
  | steps + 1, cursor =>
      if cursor.column = indentation && !cursor.ahead.isEmpty then do
        let (text, cursor) := cursor.span fun c => !isBreak c
        let gap ← blockGap? indentation (some indentation) cursor.skip
        let (lines, next) ← blockLinesFrom indentation steps gap.next
        return (⟨text, cursor.ahead.take 1, gap.breaks⟩ :: lines, next)
      else some ([], cursor)

/-- The block scalar whose header begins here, and the place after it. The parent is the
indentation of the block around it, if there is one. -/
def block? (style : BlockStyle) (parent : Option Nat) (cursor : Cursor) :
    Option (String × Cursor) := do
  let (header, width) ← BlockHeader.read? cursor.ahead
  let cursor ← (cursor.advance width).skipLineEnd?
  let limit := header.increment.map fun increment => parent.getD 0 + increment
  let floor := max 1 ((parent.map (· + 1)).getD 0)
  let gap ← blockGap? floor limit cursor
  let (lines, next) ← blockLinesFrom gap.indentation (cursor.ahead.length + 1) gap.next
  let leading := if lines.isEmpty && header.chomping != .keep then [] else gap.breaks
  return (String.ofList (leading ++ BlockLine.textOf style header.chomping lines), next)

end SchemaWire.Yaml
