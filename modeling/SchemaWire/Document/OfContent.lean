import SchemaWire.Document.Fields
import SchemaWire.Schema.TypeExpr
import SchemaWire.Text.Segments

/-!
Literals and type expressions in documents. Both are read from self-describing values, as the
value decides which form it has: a bare name, or a mapping with a single entry that names the
compound. There is no partial result: a malformed part makes the whole expression malformed.
-/
namespace SchemaWire

/-- The literal that a value is. Integers have to be signed integers of 64 bits. -/
def LiteralValue.ofContent? : Content → Option LiteralValue
  | .bool value => some (.bool value)
  | .int value => if value.toInt64.toInt = value then some (.int value.toInt64) else none
  | .text value => some (.str value)
  | .null => some .null
  | .float | .list _ | .mapping _ => none

/-- The enum tag that a value is: a record of a name and values. -/
def EnumTag.ofContent? (content : Content) : Option EnumTag := do
  match ← content.fields? ["name", "values"] with
  | [some name, some values] => return ⟨← name.text?, ← values.texts?⟩
  | _ => none

/-- The attachment that a value is: an enum tag or a note. -/
def Attachment.ofContent? : Content → Option Attachment
  | .mapping [(key, value)] =>
      match Content.keyPosition? ["enum", "note"] key with
      | some (some 0) => (EnumTag.ofContent? value).map .enum
      | some (some 1) => value.text?.map .note
      | _ => none
  | _ => none

def Attachment.listOfContent? : Content → Option (List Attachment)
  | .list items => items.mapM Attachment.ofContent?
  | _ => none

inductive Compound where
  | list
  | dict
  | union
  | optional
  | literal
  | model
  | annotated
deriving DecidableEq, Repr

namespace Compound

/-- All forms. -/
def all : List Compound :=
  [list, dict, union, optional, literal, model, annotated]

def name : Compound → String
  | list => "list"
  | dict => "dict"
  | union => "union"
  | optional => "optional"
  | literal => "literal"
  | model => "model"
  | annotated => "annotated"

def ofKey? (key : Content) : Option Compound :=
  match Content.keyPosition? (all.map name) key with
  | some (some position) => all[position]?
  | _ => none

end Compound

namespace TypeExpr

/-- The expression that a bare name stands for: a scalar type or a model. A blank name stands
for none. -/
def ofName? (name : String) : Option TypeExpr :=
  let name := Text.trim name
  if name = "" then none
  else
    match PrimitiveKind.ofKeyword? name with
    | some kind => some (.primitive kind)
    | none => some (.model ⟨name⟩)

def dictOf? : List (Option TypeExpr) → Option TypeExpr
  | [some key, some value] => some (.dict key value)
  | _ => none

def unionOf? (members : List (Option TypeExpr)) : Option TypeExpr :=
  (members.mapM id).map .union

/-- The annotated type of a record's fields, each given with the type that it would be. -/
def annotatedOf? : Option (List (Option (Content × Option TypeExpr))) → Option TypeExpr
  | some [some (_, some inner), none] => some (.annotated inner [])
  | some [some (_, some inner), some (attachments, _)] =>
      (Attachment.listOfContent? attachments).map (.annotated inner)
  | _ => none

def annotatedFields : List String :=
  ["type", "meta"]

mutual
def ofContent? : Content → Option TypeExpr
  | .text name => ofName? name
  | .mapping [(key, value)] =>
      match Compound.ofKey? key with
      | some .list => (ofContent? value).map .list
      | some .optional => (ofContent? value).map .optional
      | some .literal => (LiteralValue.ofContent? value).map .literal
      | some .model => value.text?.map fun path => .model ⟨path⟩
      | some .dict =>
          match value with
          | .list items => dictOf? (itemTypes items)
          | _ => none
      | some .union =>
          match value with
          | .list items => unionOf? (itemTypes items)
          | _ => none
      | some .annotated =>
          match value with
          | .list items => annotatedOf? (Content.fieldsOfItems? annotatedFields
              (items.zip (itemTypes items)))
          | .mapping entries =>
              annotatedOf? (Content.fieldsOfEntries? annotatedFields (entryTypes entries))
          | _ => none
      | none => none
  | _ => none

/-- The type expressions that items are. -/
def itemTypes : List Content → List (Option TypeExpr)
  | [] => []
  | item :: rest => ofContent? item :: itemTypes rest

/-- Entries, each value with the type expression that it is. -/
def entryTypes : List (Content × Content) → List (Content × (Content × Option TypeExpr))
  | [] => []
  | (key, value) :: rest => (key, (value, ofContent? value)) :: entryTypes rest
end

theorem itemTypes_eq_map (items : List Content) : itemTypes items = items.map ofContent? := by
  induction items with
  | nil => rfl
  | cons item rest ih => simp [itemTypes, ih]

theorem entryTypes_eq_map (entries : List (Content × Content)) :
    entryTypes entries = entries.map fun entry => (entry.1, (entry.2, ofContent? entry.2)) := by
  induction entries with
  | nil => rfl
  | cons entry rest ih => simp [entryTypes, ih]

end TypeExpr

end SchemaWire
