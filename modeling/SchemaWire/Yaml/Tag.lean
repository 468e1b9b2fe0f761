import SchemaWire.Text.Numeral
import SchemaWire.Yaml.Cursor
import SchemaWire.Yaml.Token

/-!
Names in YAML text: anchors and aliases, tags, and the directives that declare tag handles and the
version.
-/
namespace SchemaWire.Yaml

/-- Whether the character may stand in a tag without being escaped. Commas and brackets may only
stand in one that is written in full. -/
def isTagChar (isFull : Bool) (c : Char) : Bool :=
  isNameChar c || [';', '/', '?', ':', '@', '&', '=', '+', '$', '.', '!', '~', '*', '\'', '(',
    ')'].contains c || (isFull && [',', '[', ']'].contains c)

def octet? : List Char → Option (Nat × List Char)
  | '%' :: a :: b :: rest => (Text.natOfDigits? 16 [a, b]).map fun octet => (octet, rest)
  | _ => none

/-- The lower six bits of so many further octets of a character, put behind a number. -/
def furtherOctets? (code : Nat) : Nat → List Char → Option (Nat × List Char)
  | 0, chars => some (code, chars)
  | count + 1, chars =>
      match octet? chars with
      | some (octet, rest) =>
          if octet / 64 = 2 then furtherOctets? (code * 64 + octet % 64) count rest else none
      | none => none

/-- The character whose UTF-8 octets are escaped at the start of the characters. -/
def escapedChar? (chars : List Char) : Option (Char × List Char) := do
  let (first, rest) ← octet? chars
  let (code, rest) ←
    if first < 0x80 then some (first, rest)
    else if first / 32 = 6 then furtherOctets? (first % 32) 1 rest
    else if first / 16 = 14 then furtherOctets? (first % 16) 2 rest
    else if first / 8 = 30 then furtherOctets? (first % 8) 3 rest
    else none
  return ((Text.charOfCode? code).getD '\ufffd', rest)

/-- The part of a tag at the start of the characters with its escapes replaced, and how many
characters it takes. The steps bound the number of its characters. -/
def tagTextFrom (isFull : Bool) : (steps : Nat) → List Char → Nat → List Char →
    Option (String × Nat)
  | 0, _, _, _ => none
  | steps + 1, read, taken, chars =>
      match chars with
      | '%' :: _ => do
          let (c, rest) ← escapedChar? chars
          tagTextFrom isFull steps (c :: read) (taken + (chars.length - rest.length)) rest
      | c :: rest =>
          if isTagChar isFull c then tagTextFrom isFull steps (c :: read) (taken + 1) rest
          else some (String.ofList read.reverse, taken)
      | [] => some (String.ofList read.reverse, taken)

/-- The part of a tag that begins here, and the place after it. -/
def tagText? (isFull : Bool) (cursor : Cursor) : Option (String × Cursor) := do
  let (text, taken) ← tagTextFrom isFull (cursor.ahead.length + 1) [] 0 cursor.ahead
  return (text, cursor.advance taken)

/-- The name between an exclamation mark, which begins here, and perhaps a second one; whether
there is a second one; and the place after it. -/
def handle? (cursor : Cursor) : Option (String × Bool × Cursor) :=
  if cursor.isAt '!' then
    let (name, next) := cursor.skip.span isNameChar
    let text := String.ofList name
    if next.isAt '!' then some (text, true, next.skip) else some (text, false, next)
  else none

/-- The handle of a tag without a name between two marks. -/
def primaryHandle : String := "!"

/-- The handle of the tags that YAML defines. -/
def secondaryHandle : String := "!!"

/-- The written form of a handle with a second mark. -/
def namedHandle (name : String) : String :=
  "!" ++ name ++ "!"

/-- The tag that begins here with an exclamation mark, and the place after it: written in full
between angle brackets, or with a handle. The mark alone is a tag of its own. -/
def tagToken? (cursor : Cursor) : Option (Token × Cursor) :=
  if cursor.skip.isAt '<' then do
    let (text, next) ← tagText? true (cursor.advance 2)
    if text ≠ "" && next.isAt '>' then some (.tag "" text, next.skip) else none
  else do
    let (name, isNamed, next) ← handle? cursor
    let (suffix, next) ← tagText? false (if isNamed then next else cursor.skip)
    if isNamed then
      if suffix = "" then none else some (.tag (namedHandle name) suffix, next)
    else if suffix = "" then some (.tag "" primaryHandle, next)
    else some (.tag primaryHandle suffix, next)

/-- Whether a tag may end before these characters. -/
def isTagEnd (isFlow : Bool) (chars : List Char) : Bool :=
  isWordEnd chars || (isFlow && chars.head? == some ',')

/-- The name of an anchor or alias that begins here with its mark, and the place after it. -/
def anchorName? (cursor : Cursor) : Option (String × Cursor) :=
  let (name, next) := cursor.skip.span isNameChar
  let isEnd := isWordEnd next.ahead ||
    next.ahead.head?.any fun c => ['?', ':', ',', ']', '\x7d', '%', '@', '\x60'].contains c
  if name.isEmpty || !isEnd then none else some (String.ofList name, next)

/-- The greatest number of digits in a version. -/
def versionDigits : Nat := 9

/-- The number that begins here, and the place after it. -/
def versionNumber? (cursor : Cursor) : Option (Nat × Cursor) :=
  let (digits, next) := cursor.span Char.isDigit
  if digits.length > versionDigits then none
  else (Text.natOfDigits? 10 digits).map fun number => (number, next)

def versionDirective? (cursor : Cursor) : Option (Token × Cursor) := do
  let (major, next) ← versionNumber? (cursor.skipWhile isBlank)
  if next.isAt '.' then
    let (minor, next) ← versionNumber? next.skip
    return (.versionDirective major minor, next)
  else none

/-- The rest of a directive that declares a handle. -/
def tagDirective? (cursor : Cursor) : Option (Token × Cursor) := do
  let (name, isNamed, next) ← handle? (cursor.skipWhile isBlank)
  let handle ← if isNamed then some (namedHandle name)
    else if name = "" then some primaryHandle else none
  if next.ahead.head?.any isBlank then
    let (base, next) ← tagText? true (next.skipWhile isBlank)
    if base ≠ "" && isWordEnd next.ahead then some (.tagDirective handle base, next) else none
  else none

/-- The directive that begins here with a percent sign, and the start of the next line. -/
def directive? (cursor : Cursor) : Option (Token × Cursor) := do
  let (name, next) := cursor.skip.span isNameChar
  if !isWordEnd next.ahead then none
  let (token, next) ←
    match String.ofList name with
    | "YAML" => versionDirective? next
    | "TAG" => tagDirective? next
    | _ => none
  let next ← next.skipLineEnd?
  return (token, next)

end SchemaWire.Yaml
