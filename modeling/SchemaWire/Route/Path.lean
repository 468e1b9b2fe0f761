import SchemaWire.Error
import SchemaWire.Text.Segments

/-!
Path templates of routes: static text and placeholders. A placeholder is a name in braces,
`{name}`, or a name with a pattern after a colon, `{name:pattern}`; braces inside a pattern have
to balance.
-/
namespace SchemaWire

/-- A piece of a path template. -/
inductive PathSegment where
  | text (value : String)
  | param (name : String)
deriving DecidableEq, Repr

namespace PathSegment

/-- The segment of static text, given in reverse; there is none for no text. -/
def ofText : List Char → List PathSegment
  | [] => []
  | read => [.text (String.ofList read.reverse)]

/-- The name of a placeholder: what stands before the first colon, without blanks around it. -/
def placeholderName (inside : List Char) : List Char :=
  Text.trimChars (inside.takeWhile (· ≠ ':'))

/-- The segments of the rest of a template. `depth` counts the open braces; `read` holds in
reverse the static text since the last placeholder or, inside a placeholder, its inside. -/
def scan (path : String) :
    (depth : Nat) → (read : List Char) → List Char → Except RouteFault (List PathSegment)
  | 0, read, [] => .ok (ofText read)
  | 0, read, '\x7b' :: rest => (ofText read ++ ·) <$> scan path 1 [] rest
  | 0, _, '\x7d' :: _ => .error (.unopenedBrace path)
  | 0, read, c :: rest => scan path 0 (c :: read) rest
  | _ + 1, _, [] => .error (.unclosedBrace path)
  | depth + 1, read, '\x7b' :: rest => scan path (depth + 2) ('\x7b' :: read) rest
  | 1, read, '\x7d' :: rest =>
      match placeholderName read.reverse with
      | [] => .error (.emptyPlaceholder path)
      | name => (.param (String.ofList name) :: ·) <$> scan path 0 [] rest
  | depth + 2, read, '\x7d' :: rest => scan path (depth + 1) ('\x7d' :: read) rest
  | depth + 1, read, c :: rest => scan path (depth + 1) (c :: read) rest

def parse (path : String) : Except RouteFault (List PathSegment) :=
  scan path 0 [] path.toList

end PathSegment

end SchemaWire
