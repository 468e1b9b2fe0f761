import SchemaWire.Descriptor.Render
import SchemaWire.Schema.Model

/-!
Object types: the declared form of models and of route forms.
-/
namespace SchemaWire

/-- A declared field with its classified and its rendered type. -/
structure ObjectField where
  name : String
  descriptor : Descriptor
  ty : TypeScript.Ty
  default : Option LiteralValue
deriving Repr

/-- An object type. Only the form types of routes have no path. -/
structure ObjectType where
  name : String
  path : Option ModelPath
  fields : List ObjectField
  isExported : Bool
deriving Repr

namespace ObjectType

def defaultDoc (value : LiteralValue) : String :=
  "@default " ++ value.render.print

def typeDecl (object : ObjectType) : TypeScript.TypeDecl :=
  ⟨object.name, .object (object.fields.map fun field =>
    ⟨field.name, field.ty, field.default.map defaultDoc⟩), object.isExported⟩

/-- The models that the fields mention, field by field. -/
def references (object : ObjectType) : List ModelPath :=
  object.fields.flatMap fun field => field.descriptor.models

def hasUnionOfModels (object : ObjectType) : Bool :=
  object.fields.any fun field => field.descriptor.hasUnionOfModels

/-- The first field of a name. -/
def field? (object : ObjectType) (name : String) : Option ObjectField :=
  object.fields.find? fun field => field.name == name

end ObjectType

end SchemaWire
