import SchemaWire.Schema.Document
import SchemaWire.Text.Quoted
import SchemaWire.TypeScript.Printer

/-!
Why a document cannot be read.
-/
namespace SchemaWire

/-- What was found in place of something else. -/
inductive Found where
  | null
  | bool (value : Bool)
  | int (value : Int)
  | float (text : String)
  | string (text : String)
  | sequence
  | map
deriving DecidableEq, Repr

def Found.describe : Found → String
  | null => "null"
  | bool true => "boolean `true`"
  | bool false => "boolean `false`"
  | int value => "integer `" ++ toString value ++ "`"
  | float text => "floating point `" ++ text ++ "`"
  | string text => "string " ++ Text.quoted text
  | sequence => "sequence"
  | map => "map"

/-- The reason why a document cannot be read. -/
inductive ReadError where
  /-- The text is not well formed. -/
  | malformed
  | missingField (name : String)
  | duplicateField (name : String)
  | unknownField (name : String) (known : List String)
  | unknownMethod (name : String)
  | invalidType (found : Found) (expected : String)
  | tooFewItems (count : Nat) (record : String) (fields : Nat)
  | tooManyItems (count : Nat)
  | notSingleEntry
  | noTypeMatches
  | noLiteralMatches
  | emptyTypeName
deriving DecidableEq, Repr

namespace ReadError

/-- A name between backticks. -/
def ticked (name : String) : String :=
  "`" ++ name ++ "`"

def tickedList (names : List String) : String :=
  TypeScript.joinWith ", " (names.map ticked)

def methodSpellings : List String :=
  HttpMethod.all.flatMap fun method => [method.name, method.lowerName]

/-- The error in words. What is wrong with a malformed text is not said. -/
def message : ReadError → Option String
  | malformed => none
  | missingField name => some ("missing field " ++ ticked name)
  | duplicateField name => some ("duplicate field " ++ ticked name)
  | unknownField name known =>
      some ("unknown field " ++ ticked name ++ ", expected one of " ++ tickedList known)
  | unknownMethod name =>
      some ("unknown variant " ++ ticked name ++ ", expected one of " ++ tickedList methodSpellings)
  | invalidType found expected =>
      some ("invalid type: " ++ found.describe ++ ", expected " ++ expected)
  | tooFewItems count record fields =>
      some ("invalid length " ++ toString count ++ ", expected " ++ record ++ " with " ++
        toString fields ++ " elements")
  | tooManyItems count =>
      some ("invalid length " ++ toString count ++ ", expected fewer elements in array")
  | notSingleEntry => some "invalid value: map, expected map with a single key"
  | noTypeMatches => some "data did not match any variant of untagged enum RawTypeExpr"
  | noLiteralMatches => some "data did not match any variant of untagged enum LiteralValue"
  | emptyTypeName => some "empty type name"

end ReadError

end SchemaWire
