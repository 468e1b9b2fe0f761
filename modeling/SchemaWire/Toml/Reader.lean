import SchemaWire.Toml.Number
import SchemaWire.Toml.Value

/-!
Reading TOML text. Each function takes the characters ahead and gives what it read together with
the characters after it, or nothing where the text is not well formed.
-/
namespace SchemaWire.Toml

/-- Whether a character is a blank within a line. -/
def isBlank (c : Char) : Bool :=
  c == ' ' || c == '\t'

/-- The characters after blanks. -/
def skipBlanks (text : List Char) : List Char :=
  text.dropWhile isBlank

/-- The characters after a line break, if there is one. -/
def afterBreak? : List Char → Option (List Char)
  | '\n' :: rest => some rest
  | '\r' :: '\n' :: rest => some rest
  | _ => none

/-- Whether a character may stand in a comment or, but for quotes and backslashes, in a string. -/
def isTextChar (c : Char) : Bool :=
  c == '\t' || (' ' ≤ c && c ≠ '\x7f')

def skipComment : List Char → List Char
  | '#' :: rest => rest.dropWhile isTextChar
  | text => text

/-- The start of the next line, if nothing but blanks and a comment is left of this one. -/
def endLine? (text : List Char) : Option (List Char) :=
  match skipComment (skipBlanks text) with
  | [] => some []
  | rest => afterBreak? rest

/-- The characters after blanks, line breaks and comments. The steps bound the number of lines. -/
def skipLines : (steps : Nat) → List Char → List Char
  | 0, text => text
  | steps + 1, text =>
      let text := skipBlanks text
      match afterBreak? (skipComment text) with
      | some rest => skipLines steps rest
      | none => text

/-- The characters after a line break, or all of them. -/
def dropBreak (text : List Char) : List Char :=
  (afterBreak? text).getD text

/-- The character that a letter stands for after a backslash. -/
def escaped? : Char → Option Char
  | 'b' => some '\x08'
  | 't' => some '\t'
  | 'n' => some '\n'
  | 'f' => some '\x0c'
  | 'r' => some '\r'
  | '"' => some '"'
  | '\\' => some '\\'
  | _ => none

/-- The character of a code of so many hexadecimal digits. -/
def escapedCode? (width : Nat) (text : List Char) : Option (Char × List Char) := do
  let digits := text.take width
  let code ← if digits.length = width then Text.natOfDigits? 16 digits else none
  let c ← Text.charOfCode? code
  return (c, text.drop width)

def escape? : List Char → Option (Char × List Char)
  | 'u' :: rest => escapedCode? 4 rest
  | 'U' :: rest => escapedCode? 8 rest
  | c :: rest => (escaped? c).map fun c => (c, rest)
  | [] => none

/-- A quotation mark: double quotes allow escapes, single quotes do not. -/
abbrev Quote := Char

/-- The rest of a string on one line, given what was read of it in reverse. The steps bound the
number of its characters. -/
def lineStringFrom (quote : Quote) :
    (steps : Nat) → List Char → List Char → Option (String × List Char)
  | 0, _, _ => none
  | _, _, [] => none
  | steps + 1, read, c :: rest =>
      if c == quote then some (String.ofList read.reverse, rest)
      else if c == '\\' && quote == '"' then do
        let (c, rest) ← escape? rest
        lineStringFrom quote steps (c :: read) rest
      else if isTextChar c then lineStringFrom quote steps (c :: read) rest
      else none

/-- The characters after a backslash at the end of a line, all white space that follows left
out. -/
def afterContinuation? (text : List Char) : Option (List Char) :=
  (afterBreak? (skipBlanks text)).map fun rest =>
    rest.dropWhile fun c => isBlank c || c == '\n' || c == '\r'

/-- The greatest number of quotation marks that may stand right before the closing ones. -/
def closingSpare : Nat := 2

/-- The rest of a string over several lines, given what was read of it in reverse. Two quotation
marks at most may stand together in it, also right before the closing three. -/
def blockStringFrom (quote : Quote) :
    (steps : Nat) → List Char → List Char → Option (String × List Char)
  | 0, _, _ => none
  | _, _, [] => none
  | steps + 1, read, c :: rest =>
      if c == quote then
        let marks := (c :: rest).takeWhile (· == quote)
        if marks.length < 3 then
          blockStringFrom quote steps (marks ++ read) ((c :: rest).drop marks.length)
        else
          let spare := min closingSpare (marks.length - 3)
          some (String.ofList (marks.take spare ++ read).reverse, (c :: rest).drop (spare + 3))
      else if c == '\\' && quote == '"' then
        match afterContinuation? rest with
        | some rest => blockStringFrom quote steps read rest
        | none => do
            let (c, rest) ← escape? rest
            blockStringFrom quote steps (c :: read) rest
      else
        match afterBreak? (c :: rest) with
        | some rest => blockStringFrom quote steps ('\n' :: read) rest
        | none => if isTextChar c then blockStringFrom quote steps (c :: read) rest else none

/-- A string whose opening mark was read; on one line or, after three marks, over several. -/
def string? (quote : Quote) (text : List Char) : Option (String × List Char) :=
  match text with
  | a :: b :: rest =>
      if a == quote && b == quote then blockStringFrom quote (rest.length + 1) [] (dropBreak rest)
      else lineStringFrom quote (text.length + 1) [] text
  | _ => lineStringFrom quote (text.length + 1) [] text

/-- Whether a character may stand in a key without quotes. -/
def isBareKeyChar (c : Char) : Bool :=
  c.isAlphanum || c == '_' || c == '-'

def keyPart? (text : List Char) : Option (String × List Char) :=
  match text with
  | [] => none
  | c :: rest =>
      if c == '"' || c == '\'' then lineStringFrom c (rest.length + 1) [] rest
      else
        match text.takeWhile isBareKeyChar with
        | [] => none
        | name => some (String.ofList name, text.dropWhile isBareKeyChar)

/-- A key: parts with dots between them, and blanks around all of them. The steps bound the number
of its parts. -/
def key? : (steps : Nat) → List Char → Option (List String × List Char)
  | 0, _ => none
  | steps + 1, text => do
      let (part, rest) ← keyPart? (skipBlanks text)
      match skipBlanks rest with
      | '.' :: rest =>
          let (parts, rest) ← key? steps rest
          return (part :: parts, rest)
      | rest => return ([part], rest)

/-- Whether a character may stand in a number, a date or a time. -/
def isNumberChar (c : Char) : Bool :=
  c.isAlphanum || ['+', '-', '_', '.', ':'].contains c

/-- A word: a truth value, a number, a date or a time. A date may be followed by a space and a
time. -/
def word? (text : List Char) : Option (Value × List Char) :=
  let word := text.takeWhile isNumberChar
  let rest := text.dropWhile isNumberChar
  let time := (rest.drop 1).takeWhile isNumberChar
  let dateTime := word ++ ' ' :: time
  if isDate word && rest.head? == some ' ' && isDateTime dateTime then
    some (.number, rest.drop (time.length + 1))
  else if word == ['t', 'r', 'u', 'e'] then some (.bool true, rest)
  else if word == ['f', 'a', 'l', 's', 'e'] then some (.bool false, rest)
  else if isNumber word then some (.number, rest)
  else none

mutual
/-- A value. The steps of this function and the following ones bound the number of values. -/
def value? : (steps : Nat) → List Char → Option (Value × List Char)
  | 0, _ => none
  | steps + 1, text =>
      match text with
      | '"' :: rest => (string? '"' rest).map fun (text, rest) => (.string text, rest)
      | '\'' :: rest => (string? '\'' rest).map fun (text, rest) => (.string text, rest)
      | '[' :: rest => (items? steps rest).map fun (items, rest) => (.array items, rest)
      | '\x7b' :: rest => do
          let (pairs, rest) ←
            match skipBlanks rest with
            | '\x7d' :: rest => some ([], rest)
            | rest => pairs? steps rest
          let entries ← assignAll? [] pairs
          return (.table .inline entries, rest)
      | text => word? text

def items? : (steps : Nat) → List Char → Option (List Value × List Char)
  | 0, _ => none
  | steps + 1, text =>
      match skipLines text.length text with
      | ']' :: rest => some ([], rest)
      | text => do
          let (item, rest) ← value? steps text
          match skipLines rest.length rest with
          | ',' :: rest =>
              let (items, rest) ← items? steps rest
              return (item :: items, rest)
          | ']' :: rest => return ([item], rest)
          | _ => none

/-- The keys and values of an inline table up to its end. -/
def pairs? : (steps : Nat) → List Char → Option (List (List String × Value) × List Char)
  | 0, _ => none
  | steps + 1, text => do
      let (pair, rest) ← pair? steps text
      match skipBlanks rest with
      | ',' :: rest =>
          let (pairs, rest) ← pairs? steps rest
          return (pair :: pairs, rest)
      | '\x7d' :: rest => return ([pair], rest)
      | _ => none

def pair? : (steps : Nat) → List Char → Option ((List String × Value) × List Char)
  | 0, _ => none
  | steps + 1, text => do
      let (key, rest) ← key? (text.length + 1) text
      match rest with
      | '=' :: rest =>
          let (value, rest) ← value? steps (skipBlanks rest)
          return ((key, value), rest)
      | _ => none
end

def header? (text : List Char) : Option (Section × List Char) :=
  match text with
  | '[' :: rest => do
      let (path, rest) ← key? (rest.length + 1) rest
      match rest with
      | ']' :: ']' :: rest => return (⟨path, true, []⟩, rest)
      | _ => none
  | _ => do
      let (path, rest) ← key? (text.length + 1) text
      match rest with
      | ']' :: rest => return (⟨path, false, []⟩, rest)
      | _ => none

/-- The sections of a document, given the current one with its values in reverse. The steps bound
the number of lines. -/
def sectionsFrom : (steps : Nat) → Section → List Char → Option (List Section)
  | 0, _, _ => none
  | steps + 1, current, text =>
      let finished : Section := { current with pairs := current.pairs.reverse }
      match skipLines (text.length + 1) text with
      | [] => some [finished]
      | '#' :: rest => if (rest.dropWhile isTextChar).isEmpty then some [finished] else none
      | '[' :: rest => do
          let (next, rest) ← header? rest
          let sections ← sectionsFrom steps next (← endLine? rest)
          return finished :: sections
      | text => do
          let (pair, rest) ← pair? (text.length + 1) text
          sectionsFrom steps { current with pairs := pair :: current.pairs } (← endLine? rest)

/-- The table of a text, if it is well formed. A byte order mark is passed over. -/
def read? (text : String) : Option Entries := do
  let chars :=
    match text.toList with
    | '\ufeff' :: rest => rest
    | chars => chars
  ofSections? (← sectionsFrom (chars.length + 1) ⟨[], false, []⟩ chars)

end SchemaWire.Toml
