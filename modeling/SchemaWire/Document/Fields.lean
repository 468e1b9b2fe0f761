import SchemaWire.Data.Content

/-!
Records and variants in self-describing values. A record is a mapping of its fields, or a list of
them in order; a variant is a mapping with a single entry under the variant's name.
-/
namespace SchemaWire.Content

/-- The position of the first of the names that is the given one. -/
def positionOf? (names : List String) (name : String) : Option Nat :=
  names.findIdx? (· = name)

/-- What a key says: the position of the name it gives, or `none` for another name. A name may
also be given by its position. Other values are not keys at all. -/
def keyPosition? (names : List String) : Content → Option (Option Nat)
  | .text name => some (positionOf? names name)
  | .int position =>
      if position < 0 then none
      else if position.toNat < names.length then some (some position.toNat)
      else some none
  | _ => none

/-- Fills the fields of a record from entries. Entries under other names are ignored, a repeated
field is refused. -/
def fillFields? {α : Type} (names : List String) :
    List (Option α) → List (Content × α) → Option (List (Option α))
  | fields, [] => some fields
  | fields, (key, value) :: rest =>
      match keyPosition? names key with
      | none => none
      | some none => fillFields? names fields rest
      | some (some position) =>
          match fields[position]? with
          | some none => fillFields? names (fields.set position (some value)) rest
          | _ => none

/-- The fields of a record from its entries; absent fields are `none`. -/
def fieldsOfEntries? {α : Type} (names : List String) (entries : List (Content × α)) :
    Option (List (Option α)) :=
  fillFields? names (names.map fun _ => none) entries

/-- The fields of a record from a list of them in order, of which the last may be missing. -/
def fieldsOfItems? {α : Type} (names : List String) (items : List α) :
    Option (List (Option α)) :=
  if items.length ≤ names.length then
    some (items.map some ++ List.replicate (names.length - items.length) none)
  else
    none

def fields? (names : List String) : Content → Option (List (Option Content))
  | .list items => fieldsOfItems? names items
  | .mapping entries => fieldsOfEntries? names entries
  | _ => none

def text? : Content → Option String
  | .text value => some value
  | _ => none

def texts? : Content → Option (List String)
  | .list items => items.mapM text?
  | _ => none

end SchemaWire.Content
