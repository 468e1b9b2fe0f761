import SchemaWire.TypeScript.Name

/-!
The words of raw TypeScript text. The helpers of a module are raw text, so what they refer to is
read from their words: string literals and the text of template literals are left out, and so are
the names of properties and the words of the language itself.
-/
namespace SchemaWire.TypeScript

/-- A word, or a character that is neither part of a word nor a blank. -/
inductive Token where
  | word (name : String)
  | mark (c : Char)
deriving DecidableEq, Repr

/-- What the characters that are read belong to. -/
inductive TextMode where
  | code
  | quoted
  | template
deriving DecidableEq, Repr

/-- The word whose characters were read, in reverse; digits alone are a number and no word. -/
def endWord (read : List Char) : List Token :=
  if isBareChars read.reverse then [.word (String.ofList read.reverse)] else []

/-- The tokens of a line, given what encloses its rest, innermost first, and the characters of a
word that was begun. A substitution in a template is code up to its closing brace. -/
def lineTokens : List TextMode → List Char → List Char → List Token
  | _, read, [] => endWord read
  | .quoted :: modes, read, '\\' :: _ :: rest => lineTokens (.quoted :: modes) read rest
  | .quoted :: modes, read, '"' :: rest => lineTokens modes read rest
  | .quoted :: modes, read, _ :: rest => lineTokens (.quoted :: modes) read rest
  | .template :: modes, read, '\x60' :: rest => lineTokens modes read rest
  | .template :: modes, read, '$' :: '\x7b' :: rest =>
      lineTokens (.code :: .template :: modes) read rest
  | .template :: modes, read, _ :: rest => lineTokens (.template :: modes) read rest
  | modes, read, c :: rest =>
      if isNamePart c then lineTokens modes (c :: read) rest
      else endWord read ++
        match c with
        | ' ' => lineTokens modes [] rest
        | '"' => lineTokens (.quoted :: modes) [] rest
        | '\x60' => lineTokens (.template :: modes) [] rest
        | '\x7b' => .mark c :: lineTokens (.code :: modes) [] rest
        | '\x7d' => .mark c :: lineTokens modes.tail [] rest
        | _ => .mark c :: lineTokens modes [] rest

/-- Words of the language that can stand where a name can: its reserved words, the types and the
value that it predefines, and the words that are special in some places only. -/
def isLanguageWord (word : String) : Bool :=
  isReserved word ||
    ["any", "as", "boolean", "constructor", "never", "number", "of", "string", "undefined",
      "unknown"].contains word

/-- The names up to the bracket that closes an array pattern. -/
def patternNames : List Token → List String
  | .word name :: rest => name :: patternNames rest
  | .mark ']' :: _ | [] => []
  | .mark _ :: rest => patternNames rest

/-- The names that tokens bind: constants, and what stands before a colon, which are parameters
and fields. -/
def boundWords : List Token → List String
  | .word "const" :: .mark '[' :: rest => patternNames rest ++ boundWords rest
  | .word "const" :: .word name :: rest => name :: boundWords rest
  | .word name :: .mark ':' :: rest => name :: boundWords rest
  | .word name :: .mark '?' :: .mark ':' :: rest => name :: boundWords rest
  | _ :: rest => boundWords rest
  | [] => []

/-- The words that tokens use as names. A word after a point is the name of a property. -/
def usedWords : List Token → List String
  | .mark '.' :: .word _ :: rest => usedWords rest
  | .word name :: rest => if isLanguageWord name then usedWords rest else name :: usedWords rest
  | .mark _ :: rest => usedWords rest
  | [] => []

example : usedWords (lineTokens [] [] "  super(f(this.x, \"a b\"), y);".toList) = ["f", "y"] := by
  decide +kernel

example : boundWords (lineTokens [] [] "  const [key, item] = f(a);".toList) = ["key", "item"] := by
  decide +kernel

end SchemaWire.TypeScript
