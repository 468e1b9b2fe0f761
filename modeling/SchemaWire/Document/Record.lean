import SchemaWire.Data.Json
import SchemaWire.Document.ReadError

/-!
Records in JSON. A record is an object of its fields, or an array of them in order. Fields are
read from left to right and the first error counts; that a field is missing is found at the end.
-/
namespace SchemaWire

abbrev Read := Except ReadError

/-- Where a value comes from: from text that is read in one pass, or from a value that is there
as a whole. Only errors differ. -/
inductive JsonSource where
  | text
  | value
deriving DecidableEq, Repr

namespace Json

/-- What the value is when it stands in place of something else. -/
def found : Json → Read Found
  | .null => .ok .null
  | .bool value => .ok (.bool value)
  | .int value => .ok (.int value)
  | .float text => .ok (.float text)
  | .string text => .ok (.string text)
  | .array _ => .ok .sequence
  | .object _ | .cut _ _ => .ok .map
  | .unreadable _ => .error .malformed

/-- Refuses the value in place of what is expected. -/
def refuse {α : Type} (expected : String) (value : Json) : Read α :=
  match value.found with
  | .ok found => .error (.invalidType found expected)
  | .error fault => .error fault

def skip (value : Json) : Read Unit :=
  if value.isSkippable then .ok () else .error .malformed

def readString : Json → Read String
  | .string text => .ok text
  | other => other.refuse "a string"

/-- A value that may be `null`. -/
def readNullable {α : Type} (read : Json → Read α) : Json → Read (Option α)
  | .null => .ok none
  | other => (read other).map some

def readItems {α : Type} (read : Json → Read α) : List Json → Read (List α)
  | [] => .ok []
  | item :: rest => do
      let value ← read item
      let values ← readItems read rest
      return value :: values

def readArray {α : Type} (read : Json → Read α) : Json → Read (List α)
  | .array items => readItems read items
  | other => other.refuse "a sequence"

/-- The end of an object: an object that is cut off is malformed. -/
def readEnd (isCut : Bool) : Read Unit :=
  if isCut then .error .malformed else .ok ()

end Json

/-- How a record is read: its fields in order, whether other fields are refused, and how the
record grows field by field. `finish` gives the record, or the name of a missing field. -/
structure RecordReader (σ α : Type) where
  title : String
  fields : List String
  isClosed : Bool
  start : σ
  readField : String → Json → σ → Read σ
  finish : σ → Except String α

namespace RecordReader

variable {σ α : Type}

/-- Reads the members of an object, given the fields already read. -/
def readMembers (reader : RecordReader σ α) (seen : List String) (part : σ) :
    List (String × Json) → Read σ
  | [] => .ok part
  | (name, value) :: rest =>
      if name ∈ reader.fields then
        if name ∈ seen then .error (.duplicateField name)
        else do
          let next ← reader.readField name value part
          reader.readMembers (name :: seen) next rest
      else if reader.isClosed then .error (.unknownField name reader.fields)
      else do
        value.skip
        reader.readMembers seen part rest

def readObject (reader : RecordReader σ α) (members : List (String × Json)) (isCut : Bool) :
    Read α := do
  let part ← reader.readMembers [] reader.start members
  Json.readEnd isCut
  (reader.finish part).mapError .missingField

/-- Reads the items of an array as the fields in order. What is left of both is returned. -/
def readInOrder (reader : RecordReader σ α) (part : σ) :
    List String → List Json → Read (σ × List Json)
  | name :: names, item :: rest => do
      let next ← reader.readField name item part
      reader.readInOrder next names rest
  | _, rest => .ok (part, rest)

/-- The position of a missing field. -/
def tooFew (reader : RecordReader σ α) (missing : String) : ReadError :=
  .tooFewItems (reader.fields.idxOf missing) reader.title reader.fields.length

/-- Refuses items after the last field. -/
def refuseMore (source : JsonSource) (count : Nat) : List Json → Read Unit
  | [] => .ok ()
  | _ :: _ =>
      match source with
      | .text => .error .malformed
      | .value => .error (.tooManyItems count)

def readSequence (reader : RecordReader σ α) (source : JsonSource) (items : List Json) :
    Read α := do
  let (part, rest) ← reader.readInOrder reader.start reader.fields items
  let record ← (reader.finish part).mapError reader.tooFew
  refuseMore source items.length rest
  return record

/-- The record that a value is. -/
def read (reader : RecordReader σ α) (source : JsonSource) : Json → Read α
  | .object members => reader.readObject members false
  | .cut members _ => reader.readObject members true
  | .array items => reader.readSequence source items
  | other => other.refuse reader.title

end RecordReader

end SchemaWire
