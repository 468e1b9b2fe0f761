import SchemaWire.Yaml.Block
import SchemaWire.Yaml.Plain
import SchemaWire.Yaml.Quoted
import SchemaWire.Yaml.Tag

/-!
From text to tokens. Two things are decided here that no single character shows: where blocks
start and end, by indentation, and where keys begin. A colon makes a key of what stands before
it; so wherever a key may begin, the place is remembered until it is known whether one did.
-/
namespace SchemaWire.Yaml

/-- A place where a key may have begun: the number of tokens before it, its line and column, and
whether nothing but a key can stand there. -/
structure KeyPlace where
  position : Nat
  line : Nat
  column : Nat
  isRequired : Bool
deriving Repr

/-- What is known at a place of the text: the tokens so far, the columns of the open blocks, the
innermost first, the place where a key may have begun here and in each collection around, and
whether a key may begin at the next token. -/
structure Layout where
  cursor : Cursor
  tokens : Array Token
  blocks : List Nat
  keyPlace : Option KeyPlace
  outerPlaces : List (Option KeyPlace)
  allowsKey : Bool

/-- Steps that read tokens, or find that the text is not well formed. -/
abbrev Scan := StateT Layout Option

namespace Layout

def isFlow (layout : Layout) : Bool :=
  !layout.outerPlaces.isEmpty

/-- The column from which on lines belong to the innermost block. -/
def contentColumn (layout : Layout) : Nat :=
  match layout.blocks with
  | [] => 0
  | column :: _ => column + 1

/-- Whether the next token stands at the column of the innermost block. -/
def isAtBlock (layout : Layout) : Bool :=
  layout.blocks.head? == some layout.cursor.column

def emit (token : Token) : Scan Unit :=
  modify fun layout => { layout with tokens := layout.tokens.push token }

/-- Inserts a token after so many tokens. -/
def insertAt (position : Nat) (token : Token) : Scan Unit :=
  modify fun layout => { layout with tokens := layout.tokens.insertIdxIfInBounds position token }

def moveTo (cursor : Cursor) : Scan Unit :=
  modify fun layout => { layout with cursor }

/-- Passes over so many characters. -/
def advance (count : Nat) : Scan Unit :=
  modify fun layout => { layout with cursor := layout.cursor.advance count }

/-- Says whether a key may begin at the next token. -/
def setAllowsKey (allowsKey : Bool) : Scan Unit :=
  modify fun layout => { layout with allowsKey }

/-- Opens a block at a column, unless one at that column is open. Its start stands after so many
tokens. In flow collections there are no blocks. -/
def openBlock (column position : Nat) (start : Token) : Scan Unit := do
  let layout ← get
  if !layout.isFlow && layout.contentColumn ≤ column then
    set { layout with blocks := column :: layout.blocks }
    insertAt position start

/-- The blocks that are still open at a column, and the number of those that are not. -/
def closedBy (column : Option Nat) : List Nat → List Nat × Nat
  | [] => ([], 0)
  | block :: rest =>
      if column.any (block ≤ ·) then (block :: rest, 0)
      else
        let (stillOpen, count) := closedBy column rest
        (stillOpen, count + 1)

/-- Closes the blocks to the right of a column, or all of them. -/
def closeBlocks (column : Option Nat) : Scan Unit := do
  let layout ← get
  if !layout.isFlow then
    let (blocks, count) := closedBy column layout.blocks
    set { layout with blocks, tokens := layout.tokens ++ Array.replicate count Token.blockEnd }

/-- Gives up the place where a key may have begun. A required key is missed then. -/
def dropKeyPlace : Scan Unit := do
  let layout ← get
  if layout.keyPlace.any (·.isRequired) then failure
  set { layout with keyPlace := none }

/-- Remembers the next token as the beginning of a key, if it may be one. -/
def markKeyPlace : Scan Unit := do
  if (← get).allowsKey then
    dropKeyPlace
    modify fun layout =>
      let place : KeyPlace := ⟨layout.tokens.size, layout.cursor.line, layout.cursor.column,
        !layout.isFlow && layout.isAtBlock⟩
      { layout with keyPlace := some place }

/-- The greatest distance from the beginning of a key to its colon. -/
def longestKey : Nat := 1024

/-- Whether a key from a place would be over: keys go over one line and are not too long. -/
def KeyPlace.isOver (place : KeyPlace) (cursor : Cursor) : Bool :=
  place.line < cursor.line || place.column + longestKey < cursor.column

/-- Gives up a place where a key would be over; a required key is missed then. -/
def dropIfOver (cursor : Cursor) (place : Option KeyPlace) : Option (Option KeyPlace) :=
  match place with
  | none => some none
  | some place =>
      if KeyPlace.isOver place cursor then
        if place.isRequired then none else some none
      else some (some place)

/-- Gives up all places where a key would be over. -/
def dropOldKeyPlaces : Scan Unit := do
  let layout ← get
  let keyPlace ← dropIfOver layout.cursor layout.keyPlace
  let outerPlaces ← liftM (layout.outerPlaces.mapM (dropIfOver layout.cursor))
  set { layout with keyPlace, outerPlaces }

/-- Passes over white space and comments before a token. Outside of flow collections a key may
begin on a new line; tabs are passed over only where no key may begin. -/
def skipToToken (isFlow allowsKey : Bool) (cursor : Cursor) : Cursor × Bool :=
  let isSkipped (c : Char) : Bool := c == ' ' || ((isFlow || !allowsKey) && c == '\t')
  let next := (cursor.skipWhile isSkipped).skipComment
  if _hbreak : next.ahead.head?.any isBreak then
    skipToToken isFlow (!isFlow || allowsKey) next.skip
  else (next, allowsKey)
termination_by cursor.ahead.length
decreasing_by
  refine Nat.lt_of_lt_of_le (Cursor.length_skip_lt ?_)
    (Nat.le_trans (Cursor.length_skipComment_le _) (cursor.length_skipWhile_le isSkipped))
  intro hnil
  have hbreak : next.ahead.head?.any isBreak = true := _hbreak
  rw [show next.ahead = [] from hnil] at hbreak
  cases hbreak

/-- Starts or ends a document: all blocks end. -/
def limitDocument (token : Token) : Scan Unit := do
  closeBlocks none
  dropKeyPlace
  setAllowsKey false
  advance 3
  emit token

def readDirective : Scan Unit := do
  closeBlocks none
  dropKeyPlace
  setAllowsKey false
  let (token, next) ← directive? (← get).cursor
  moveTo next
  emit token

def openFlow (start : Token) : Scan Unit := do
  markKeyPlace
  modify fun layout =>
    { layout with keyPlace := none, outerPlaces := layout.keyPlace :: layout.outerPlaces }
  setAllowsKey true
  advance 1
  emit start

def closeFlow (stop : Token) : Scan Unit := do
  dropKeyPlace
  modify fun layout =>
    match layout.outerPlaces with
    | [] => layout
    | keyPlace :: outerPlaces => { layout with keyPlace, outerPlaces }
  setAllowsKey false
  advance 1
  emit stop

/-- Opens a block for an entry at the next token, which has to be a place for one. -/
def openBlockHere (start : Token) : Scan Unit := do
  let layout ← get
  if !layout.isFlow then
    if !layout.allowsKey then failure
    openBlock layout.cursor.column layout.tokens.size start

/-- Goes on to the next item of a flow collection. -/
def readFlowEntry : Scan Unit := do
  dropKeyPlace
  setAllowsKey true
  advance 1
  emit .flowEntry

def readBlockEntry : Scan Unit := do
  openBlockHere .blockSequenceStart
  dropKeyPlace
  setAllowsKey true
  advance 1
  emit .blockEntry

def readKey : Scan Unit := do
  openBlockHere .blockMappingStart
  dropKeyPlace
  setAllowsKey !(← get).isFlow
  advance 1
  emit .key

/-- Reads the colon of a value. If a key may have begun before it, it has. -/
def readValue : Scan Unit := do
  let layout ← get
  match layout.keyPlace with
  | some place =>
      insertAt place.position .key
      openBlock place.column place.position .blockMappingStart
      modify fun layout => { layout with keyPlace := none }
      setAllowsKey false
  | none =>
      openBlockHere .blockMappingStart
      setAllowsKey !layout.isFlow
  advance 1
  emit .value

/-- Reads a token that may begin a key and ends on its line. -/
def readInline (read? : Cursor → Option (Token × Cursor)) : Scan Unit := do
  markKeyPlace
  setAllowsKey false
  let (token, next) ← read? (← get).cursor
  moveTo next
  emit token

/-- Reads a tag, which ends at white space or, in a flow collection, before a comma. -/
def readTag : Scan Unit := do
  readInline tagToken?
  let layout ← get
  if !isTagEnd layout.isFlow layout.cursor.ahead then failure

def readQuoted (quote : Quote) : Scan Unit :=
  readInline fun cursor =>
    (quoted? quote cursor).map fun (text, next) => (.scalar text false, next)

/-- Reads a plain scalar. If white space behind it goes over to another line, a key may begin
there. -/
def readPlain : Scan Unit := do
  markKeyPlace
  setAllowsKey false
  let layout ← get
  let plain ← plain? layout.isFlow layout.contentColumn layout.cursor
  moveTo plain.next
  if plain.endsLine then setAllowsKey true
  emit (.scalar plain.text true)

def readBlock (style : BlockStyle) : Scan Unit := do
  dropKeyPlace
  setAllowsKey true
  let layout ← get
  let (text, next) ← block? style layout.blocks.head? layout.cursor.skip
  moveTo next
  emit (.scalar text false)

/-- The characters that have a meaning of their own at the beginning of a token. -/
def indicators : List Char :=
  ['#', '&', '*', '!', '|', '>', '\'', '"', '%', '@', '\x60']

/-- Whether a plain scalar may begin with these characters. -/
def mayBePlain (isFlow : Bool) : List Char → Bool
  | [] => false
  | c :: rest =>
      if c == '-' then !rest.head?.any isBlank
      else if c == '?' || c == ':' then !isFlow && !isWordEnd rest
      else !isWhite c && !isFlowIndicator c && !indicators.contains c

def readToken : Scan Unit := do
  let layout ← get
  let cursor := layout.cursor
  if cursor.column = 0 && cursor.isAt '%' then readDirective
  else if cursor.isAtLimit '-' then limitDocument .documentStart
  else if cursor.isAtLimit '.' then limitDocument .documentEnd
  else
    match cursor.ahead with
    | [] => failure
    | c :: rest =>
        let isIndicator := layout.isFlow || isWordEnd rest
        if c == '[' then openFlow .flowSequenceStart
        else if c == '\x7b' then openFlow .flowMappingStart
        else if c == ']' then closeFlow .flowSequenceEnd
        else if c == '\x7d' then closeFlow .flowMappingEnd
        else if c == ',' then readFlowEntry
        else if c == '-' && isWordEnd rest then readBlockEntry
        else if c == '?' && isIndicator then readKey
        else if c == ':' && isIndicator then readValue
        else if c == '*' then
          readInline fun cursor => (anchorName? cursor).map fun (name, next) => (.alias name, next)
        else if c == '&' then
          readInline fun cursor => (anchorName? cursor).map fun (name, next) => (.anchor name, next)
        else if c == '!' then readTag
        else if c == '|' && !layout.isFlow then readBlock .literal
        else if c == '>' && !layout.isFlow then readBlock .folded
        else
          match Quote.ofMark? c with
          | some quote => readQuoted quote
          | none => if mayBePlain layout.isFlow cursor.ahead then readPlain else failure

/-- Ends the text: all blocks end. -/
def finish : Scan Unit := do
  closeBlocks none
  dropKeyPlace

def readTokens : (steps : Nat) → Scan Unit
  | 0 => failure
  | steps + 1 => do
      let layout ← get
      let (cursor, allowsKey) :=
        skipToToken layout.isFlow layout.allowsKey layout.cursor
      set { layout with cursor, allowsKey }
      dropOldKeyPlaces
      closeBlocks (some cursor.column)
      if cursor.ahead.isEmpty then finish
      else do
        readToken
        readTokens steps

end Layout

def tokens? (text : String) : Option (List Token) := do
  let cursor ← Cursor.start? text
  let layout : Layout := ⟨cursor, #[], [], none, [], true⟩
  let ((), layout) ← Layout.readTokens (cursor.ahead.length + 1) layout
  return layout.tokens.toList

end SchemaWire.Yaml
