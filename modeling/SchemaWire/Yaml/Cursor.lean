/-!
YAML text and places in it. A text is prepared once: its line breaks become one character each,
and a text with a character that YAML does not allow is none. A place knows its line and column,
as both decide what the characters ahead mean. Where a scalar goes over several lines they are
folded: a single line break between two of them is read as a space, and of several breaks the first
one is left out. Main statements: no step goes back, and a step over
a character leaves fewer of them ahead.
-/
namespace SchemaWire.Yaml

/-- Whether a text may hold the character. -/
def isAllowed (c : Char) : Bool :=
  c == '\t' || c == '\n' || c == '\r' || (' ' ≤ c && c ≤ '~') || c == '\x85' ||
    ('\xa0' ≤ c && c ≤ '\ufffd') || '\uffff' < c

/-- Whether the character ends a line. -/
def isBreak (c : Char) : Bool :=
  c == '\n' || c == '\u2028' || c == '\u2029'

/-- Whether the character is a blank within a line. -/
def isBlank (c : Char) : Bool :=
  c == ' ' || c == '\t'

/-- Whether the character is a blank or ends a line. -/
def isWhite (c : Char) : Bool :=
  isBlank c || isBreak c

/-- Whether a word ends before these characters: at white space or at the end of the text. -/
def isWordEnd (chars : List Char) : Bool :=
  chars.head?.all isWhite

/-- Whether the character may stand in a name. -/
def isNameChar (c : Char) : Bool :=
  c.isAlphanum || c == '_' || c == '-'

/-- Whether the character delimits a flow collection or its parts. -/
def isFlowIndicator (c : Char) : Bool :=
  c == ',' || c == '[' || c == ']' || c == '\x7b' || c == '\x7d'

/-- Makes one line feed of each usual line break. -/
def unifyBreaks : List Char → List Char
  | [] => []
  | '\r' :: '\n' :: rest => '\n' :: unifyBreaks rest
  | c :: rest => (if c == '\r' || c == '\x85' then '\n' else c) :: unifyBreaks rest

/-- What line breaks between two lines stand for. A line separator or paragraph separator is kept
in the first place too. -/
def foldBreaks : List Char → List Char
  | ['\n'] => [' ']
  | '\n' :: more => more
  | breaks => breaks

/-- What white space between two words stands for: blanks for themselves, unless there is a line
break among them. -/
def foldWhite (white : List Char) : List Char :=
  match white.filter isBreak with
  | [] => white
  | breaks => foldBreaks breaks

example : foldWhite [' ', '\n', '\t'] = [' '] ∧ foldWhite ['\n', ' ', '\n', '\n'] = ['\n', '\n'] ∧
    foldWhite [' ', '\t'] = [' ', '\t'] := by decide

/-- A place in a text: the characters ahead, and its line and column. -/
structure Cursor where
  ahead : List Char
  line : Nat
  column : Nat
deriving Repr

namespace Cursor

def skip (cursor : Cursor) : Cursor :=
  match cursor.ahead with
  | [] => cursor
  | c :: rest =>
      if isBreak c then ⟨rest, cursor.line + 1, 0⟩ else ⟨rest, cursor.line, cursor.column + 1⟩

/-- The place after so many characters. -/
def advance : Nat → Cursor → Cursor
  | 0, cursor => cursor
  | count + 1, cursor => advance count cursor.skip

theorem length_skip_lt {cursor : Cursor} (h : cursor.ahead ≠ []) :
    cursor.skip.ahead.length < cursor.ahead.length := by
  unfold skip
  split
  · exact absurd ‹_› h
  · rename_i hahead
    rw [hahead]
    split <;> simp

theorem length_skip_le (cursor : Cursor) : cursor.skip.ahead.length ≤ cursor.ahead.length := by
  by_cases h : cursor.ahead = []
  · simp [skip, h]
  · exact Nat.le_of_lt (length_skip_lt h)

theorem length_advance_le (count : Nat) (cursor : Cursor) :
    (cursor.advance count).ahead.length ≤ cursor.ahead.length := by
  induction count generalizing cursor with
  | zero => exact Nat.le_refl _
  | succ count ih => exact Nat.le_trans (ih cursor.skip) cursor.length_skip_le

theorem length_advance_lt {count : Nat} {cursor : Cursor} (hcount : 0 < count)
    (h : cursor.ahead ≠ []) : (cursor.advance count).ahead.length < cursor.ahead.length := by
  cases count with
  | zero => exact absurd hcount (Nat.lt_irrefl 0)
  | succ count => exact Nat.lt_of_le_of_lt (cursor.skip.length_advance_le count) (length_skip_lt h)

/-- The place at the start of a text. A byte order mark is passed over, and still takes its
column. -/
def start? (text : String) : Option Cursor :=
  let chars := text.toList
  if !chars.all isAllowed then none
  else
    let cursor : Cursor := ⟨unifyBreaks chars, 0, 0⟩
    some (if chars.head? == some '\ufeff' then cursor.skip else cursor)

/-- The place after the characters that satisfy a test. -/
def skipWhile (test : Char → Bool) (cursor : Cursor) : Cursor :=
  cursor.advance (cursor.ahead.takeWhile test).length

/-- The characters ahead that satisfy a test, and the place after them. -/
def span (test : Char → Bool) (cursor : Cursor) : List Char × Cursor :=
  (cursor.ahead.takeWhile test, cursor.skipWhile test)

theorem length_skipWhile_le (test : Char → Bool) (cursor : Cursor) :
    (cursor.skipWhile test).ahead.length ≤ cursor.ahead.length :=
  cursor.length_advance_le _

def isAt (c : Char) (cursor : Cursor) : Bool :=
  cursor.ahead.head? == some c

/-- The place at the end of the line, if a comment begins here. -/
def skipComment (cursor : Cursor) : Cursor :=
  if cursor.isAt '#' then cursor.skipWhile fun c => !isBreak c else cursor

theorem length_skipComment_le (cursor : Cursor) :
    cursor.skipComment.ahead.length ≤ cursor.ahead.length := by
  unfold skipComment
  split
  · exact cursor.length_skipWhile_le _
  · exact Nat.le_refl _

/-- The start of the next line, if nothing but blanks and a comment is left of this one. -/
def skipLineEnd? (cursor : Cursor) : Option Cursor :=
  let cursor := (cursor.skipWhile isBlank).skipComment
  match cursor.ahead with
  | [] => some cursor
  | c :: _ => if isBreak c then some cursor.skip else none

/-- Whether three marks of a kind stand here for a limit of a document: at the start of a line,
as a word of their own. -/
def isAtLimit (mark : Char) (cursor : Cursor) : Bool :=
  cursor.column = 0 && cursor.ahead.take 3 == [mark, mark, mark] &&
    isWordEnd (cursor.ahead.drop 3)

/-- Whether a document starts or ends here. -/
def isAtDocumentLimit (cursor : Cursor) : Bool :=
  cursor.isAtLimit '-' || cursor.isAtLimit '.'

end Cursor

end SchemaWire.Yaml
