/-!
Patterns of text on one line: characters, any character, sets of characters, each perhaps repeated,
and the ends of the line.
-/
namespace SchemaWire.Programs

/-- What a pattern says about a single character. -/
inductive CharPattern where
  | exactly (c : Char)
  | any
  | oneOf (isNegated : Bool) (ranges : List (Char × Char))
deriving DecidableEq, Repr

def CharPattern.admits (c : Char) : CharPattern → Bool
  | exactly d => c == d
  | any => true
  | oneOf isNegated ranges => (ranges.any fun (low, high) => low ≤ c && c ≤ high) != isNegated

/-- A pattern: characters, each perhaps repeated any number of times, and whether it begins and
ends with the line. -/
structure Pattern where
  atStart : Bool
  parts : List (CharPattern × Bool)
  atEnd : Bool
deriving DecidableEq, Repr

namespace Pattern

/-- The longest number of repetitions, from the given one down, after which the rest succeeds. -/
def longest? (next : Nat → Option Nat) : Nat → Option Nat
  | 0 => next 0
  | count + 1 => (next (count + 1)).orElse fun _ => longest? next count

/-- The number of characters that the parts cover at the start of a text, as many as possible for
each part in turn. -/
def cover? (atEnd : Bool) : List (CharPattern × Bool) → List Char → Option Nat
  | [], text => if atEnd && !text.isEmpty then none else some 0
  | (part, false) :: rest, c :: text =>
      if part.admits c then (cover? atEnd rest text).map (· + 1) else none
  | (_, false) :: _, [] => none
  | (part, true) :: rest, text =>
      longest? (fun count => (cover? atEnd rest (text.drop count)).map (· + count))
        (text.takeWhile fun c => part.admits c).length

/-- The number of characters that the pattern covers here. -/
def matchAt? (pattern : Pattern) (isStart : Bool) (text : List Char) : Option Nat :=
  if pattern.atStart && !isStart then none else cover? pattern.atEnd pattern.parts text

/-- The characters of a set up to its closing bracket, and what follows it. -/
def ranges? : (steps : Nat) → List Char → Option (List (Char × Char) × List Char)
  | 0, _ => none
  | _, [] => none
  | _, ']' :: rest => some ([], rest)
  | steps + 1, low :: '-' :: high :: rest =>
      if high == ']' then some ([(low, low), ('-', '-')], rest)
      else (ranges? steps rest).map fun (ranges, rest) => ((low, high) :: ranges, rest)
  | steps + 1, c :: rest =>
      (ranges? steps rest).map fun (ranges, rest) => ((c, c) :: ranges, rest)

def part? : List Char → Option (CharPattern × List Char)
  | '.' :: rest => some (.any, rest)
  | '[' :: '^' :: rest =>
      (ranges? (rest.length + 1) rest).map fun (ranges, rest) => (.oneOf true ranges, rest)
  | '[' :: rest =>
      (ranges? (rest.length + 1) rest).map fun (ranges, rest) => (.oneOf false ranges, rest)
  | '\\' :: 't' :: rest => some (.exactly '\t', rest)
  | '\\' :: c :: rest => if c.isAlphanum || c == '(' || c == '\x7b' then none
      else some (.exactly c, rest)
  | ['\\'] => none
  | c :: rest => some (.exactly c, rest)
  | [] => none

def parts? : (steps : Nat) → List Char → Option (List (CharPattern × Bool) × Bool)
  | _, [] => some ([], false)
  | _, ['$'] => some ([], true)
  | 0, _ => none
  | steps + 1, text => do
      let (part, rest) ← part? text
      let isRepeated := rest.head? == some '*'
      let (parts, atEnd) ← parts? steps (if isRepeated then rest.drop 1 else rest)
      return ((part, isRepeated) :: parts, atEnd)

def ofChars? (text : List Char) : Option Pattern := do
  let atStart := text.head? == some '^'
  let (parts, atEnd) ← parts? text.length (if atStart then text.drop 1 else text)
  return ⟨atStart, parts, atEnd⟩

end Pattern

end SchemaWire.Programs
