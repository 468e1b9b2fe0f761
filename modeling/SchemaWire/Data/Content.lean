import SchemaWire.Data.Json

/-!
Self-describing values: what a place of a document holds where its type is not known before it
is read, in JSON and in YAML alike.
-/
namespace SchemaWire

/-- A self-describing value. Integers are those of 64 bits, signed or not. -/
inductive Content where
  | null
  | bool (value : Bool)
  | int (value : Int)
  | float
  | text (value : String)
  | list (items : List Content)
  | mapping (entries : List (Content × Content))
deriving Repr

namespace Json

mutual
/-- The whole value, unless a part of it cannot be read. -/
def content? : Json → Option Content
  | .null => some .null
  | .bool value => some (.bool value)
  | .int value => some (.int value)
  | .float _ => some .float
  | .string text => some (.text text)
  | .array items => (contents? items).map .list
  | .object members => (memberContents? members).map .mapping
  | .unreadable _ => none
  | .cut _ _ => none

def contents? : List Json → Option (List Content)
  | [] => some []
  | item :: rest => do
      let content ← item.content?
      let contents ← contents? rest
      return content :: contents

/-- The whole values of members, each under the text of its key. -/
def memberContents? : List (String × Json) → Option (List (Content × Content))
  | [] => some []
  | (key, value) :: rest => do
      let content ← value.content?
      let contents ← memberContents? rest
      return (.text key, content) :: contents
end

end Json

end SchemaWire
