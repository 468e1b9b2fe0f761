import SchemaWire.Descriptor.Basic
import SchemaWire.Error
import SchemaWire.SortedMap
import SchemaWire.Text.Numeral
import SchemaWire.TypeScript.Name
import SchemaWire.TypeScript.Syntax

/-!
The enums of a generation. Tags of one name contribute to one enum; enums and their values are
in ascending order.
-/
namespace SchemaWire

/-- The tags attached anywhere inside a descriptor, outer ones first, each with the type it is
attached to. -/
def Descriptor.enumTags : Descriptor → List (EnumTag × Descriptor)
  | annotated inner attachments =>
      (attachments.filterMap fun attachment =>
        match attachment with
        | .enum tag => some (tag, inner)
        | .note _ => none) ++ inner.enumTags
  | optional inner | list inner => inner.enumTags
  | mapping key value => key.enumTags ++ value.enumTags
  | unionOfScalars variants _ => allTags variants
  | primitive _ | literal _ | model _ | unionOfModels _ _ => []
where
  /-- The tags inside several descriptors. -/
  allTags : List Descriptor → List (EnumTag × Descriptor)
    | [] => []
    | desc :: rest => desc.enumTags ++ allTags rest

/-- Whether an enum may have the value as a member: member names are neither empty nor numeric. -/
def isEnumValue (value : String) : Bool :=
  value != "" && !Text.isNumeral value

/-- Whether the type takes enum tags: a string or a string literal under any attachments. -/
def Descriptor.takesEnumTags (desc : Descriptor) : Bool :=
  match desc.peel with
  | primitive .str | literal (.str _) => true
  | _ => false

/-- Refuses a tag with an unusable name, without values, with an unusable value, or on a type
that takes no tags. -/
def EnumTag.check (tag : EnumTag) (inner : Descriptor) : Gen Unit :=
  if !TypeScript.isIdentifier tag.name then .error (.invalidEnumTag tag.name .invalidName)
  else if tag.values.isEmpty then .error (.invalidEnumTag tag.name .noValues)
  else if !tag.values.all isEnumValue then .error (.invalidEnumTag tag.name .invalidValue)
  else if !inner.takesEnumTags then .error (.invalidEnumTag tag.name .notString)
  else .ok ()

/-- Enum names with their values. -/
structure EnumRegistry where
  enums : SortedMap (SortedMap Unit)
deriving Repr

namespace EnumRegistry

def empty : EnumRegistry :=
  ⟨SortedMap.empty⟩

def add (registry : EnumRegistry) (tag : EnumTag) : EnumRegistry :=
  let values := (registry.enums.get? tag.name).getD SortedMap.empty
  ⟨registry.enums.insert tag.name
    (tag.values.foldl (fun values value => values.insert value ()) values)⟩

def names (registry : EnumRegistry) : List String :=
  registry.enums.keys

def values? (registry : EnumRegistry) (name : String) : Option (List String) :=
  (registry.enums.get? name).map SortedMap.keys

def toList (registry : EnumRegistry) : List (String × List String) :=
  registry.enums.entries.map fun entry => (entry.1, entry.2.keys)

def size (registry : EnumRegistry) : Nat :=
  registry.enums.size

def isEmpty (registry : EnumRegistry) : Bool :=
  registry.enums.isEmpty

def typeDecls (registry : EnumRegistry) : List TypeScript.TypeDecl :=
  registry.toList.map fun entry => ⟨entry.1, .enumeration entry.2, true⟩

end EnumRegistry

end SchemaWire
