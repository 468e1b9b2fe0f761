import SchemaWire.SortedMap

/-!
JSON values. A value may be incomplete: text that stops being JSON at some place, or that holds
what cannot be read, still has a value up to there. Reading such a value is an error only when
the place is reached, so that the first error of a text is found from left to right.
-/
namespace SchemaWire

/-- A JSON value. Numbers are integers of 64 bits, signed or not, or fractions, which go by their
text. `unreadable` is a place that cannot be read; it can be skipped unless the text stops being
JSON there. `cut` is an object that can be read only as far as these members. -/
inductive Json where
  | null
  | bool (value : Bool)
  | int (value : Int)
  | float (text : String)
  | string (text : String)
  | array (items : List Json)
  | object (members : List (String × Json))
  | unreadable (skippable : Bool)
  | cut (members : List (String × Json)) (skippable : Bool)
deriving Repr

namespace Json

mutual
/-- Whether the value can be skipped: its text is JSON to the end. -/
def isSkippable : Json → Bool
  | .array items => areSkippable items
  | .object members => haveSkippable members
  | .unreadable skippable => skippable
  | .cut members skippable => skippable && haveSkippable members
  | .null | .bool _ | .int _ | .float _ | .string _ => true

def areSkippable : List Json → Bool
  | [] => true
  | item :: rest => item.isSkippable && areSkippable rest

def haveSkippable : List (String × Json) → Bool
  | [] => true
  | (_, value) :: rest => value.isSkippable && haveSkippable rest
end

mutual
/-- The value as it is once it is there as a whole: each object has its keys in ascending order,
and of a repeated key the last value. -/
def asValue : Json → Json
  | .array items => .array (itemsAsValues items)
  | .object members => .object (SortedMap.ofList (membersAsValues members)).entries
  | .cut members skippable => .cut (membersAsValues members) skippable
  | .null => .null
  | .bool value => .bool value
  | .int value => .int value
  | .float text => .float text
  | .string text => .string text
  | .unreadable skippable => .unreadable skippable

/-- The items of an array as they are once they are there as a whole. -/
def itemsAsValues : List Json → List Json
  | [] => []
  | item :: rest => item.asValue :: itemsAsValues rest

/-- The members of an object, each value as it is once it is there as a whole. -/
def membersAsValues : List (String × Json) → List (String × Json)
  | [] => []
  | (key, value) :: rest => (key, value.asValue) :: membersAsValues rest
end

end Json

end SchemaWire
