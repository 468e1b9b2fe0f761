import SchemaWire.Text.Numeral
import SchemaWire.Yaml.Cursor

/-!
Quoted scalars. Between single quotes a quote is written twice; between double quotes there are
escapes. Both may go over several lines, which are folded.
-/
namespace SchemaWire.Yaml

inductive Quote where
  | single
  | double
deriving DecidableEq, Repr

namespace Quote

def mark : Quote → Char
  | single => '\''
  | double => '"'

def ofMark? (c : Char) : Option Quote :=
  if c == '\'' then some single else if c == '"' then some double else none

end Quote

/-- The character that a letter stands for after a backslash. -/
def escapedLetter? (c : Char) : Option Char :=
  match c with
  | '0' => some '\x00'
  | 'a' => some '\x07'
  | 'b' => some '\x08'
  | 't' | '\t' => some '\t'
  | 'n' => some '\n'
  | 'v' => some '\x0b'
  | 'f' => some '\x0c'
  | 'r' => some '\r'
  | 'e' => some '\x1b'
  | ' ' | '"' | '/' | '\\' => some c
  | 'N' => some '\x85'
  | '_' => some '\xa0'
  | 'L' => some '\u2028'
  | 'P' => some '\u2029'
  | _ => none

/-- The number of hexadecimal digits that follow a letter after a backslash. -/
def escapedWidth? (c : Char) : Option Nat :=
  match c with
  | 'x' => some 2
  | 'u' => some 4
  | 'U' => some 8
  | _ => none

/-- The character that an escape stands for, given what follows the backslash, and the number of
characters that it takes. -/
def escape? : List Char → Option (Char × Nat)
  | [] => none
  | c :: rest =>
      match escapedWidth? c with
      | none => (escapedLetter? c).map fun c => (c, 1)
      | some width => do
          let digits := rest.take width
          let code ← if digits.length = width then Text.natOfDigits? 16 digits else none
          let c ← Text.charOfCode? code
          return (c, 1 + width)

/-- The rest of a quoted scalar and the place after it, given what was read of it in reverse. -/
def quotedFrom (quote : Quote) (read : List Char) (cursor : Cursor) : Option (String × Cursor) :=
  if cursor.isAtDocumentLimit then none
  else
    match quote, _hahead : cursor.ahead with
    | _, [] => none
    | .single, '\'' :: '\'' :: _ => quotedFrom quote ('\'' :: read) (cursor.advance 2)
    | .double, '\\' :: c :: rest =>
        if isBreak c then
          let behind := cursor.advance 2
          let breaks := (behind.ahead.takeWhile isWhite).filter isBreak
          quotedFrom quote (breaks.reverse ++ read) (behind.skipWhile isWhite)
        else
          match escape? (c :: rest) with
          | none => none
          | some (c, width) => quotedFrom quote (c :: read) (cursor.advance (1 + width))
    | _, c :: _ =>
        if c == quote.mark then some (String.ofList read.reverse, cursor.skip)
        else if isWhite c then
          let white := cursor.ahead.takeWhile isWhite
          quotedFrom quote ((foldWhite white).reverse ++ read) (cursor.advance white.length)
        else quotedFrom quote (c :: read) cursor.skip
termination_by cursor.ahead.length
decreasing_by
  all_goals have hne : cursor.ahead ≠ [] := by rw [_hahead]; exact List.cons_ne_nil _ _
  · exact Cursor.length_advance_lt (by decide) hne
  · exact Nat.lt_of_le_of_lt (Cursor.length_skipWhile_le isWhite _)
      (Cursor.length_advance_lt (by decide) hne)
  · exact Cursor.length_advance_lt (by omega) hne
  · rename_i hwhite
    refine Cursor.length_advance_lt ?_ hne
    rw [_hahead, List.takeWhile_cons]
    split
    · exact Nat.succ_pos _
    · exact absurd hwhite ‹_›
  · exact Cursor.length_skip_lt hne

/-- The quoted scalar that begins here, and the place after it. -/
def quoted? (quote : Quote) (cursor : Cursor) : Option (String × Cursor) :=
  quotedFrom quote [] cursor.skip

end SchemaWire.Yaml
