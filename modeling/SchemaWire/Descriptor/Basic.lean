import SchemaWire.Schema.TypeExpr

/-!
Classified types. A descriptor is what is left of a type expression once its shape is known;
rendering, registration and conversion work on descriptors only.
-/
namespace SchemaWire

/-- The shape of a classified type. -/
inductive Descriptor where
  | primitive (kind : PrimitiveKind)
  | literal (value : LiteralValue)
  | optional (inner : Descriptor)
  | list (element : Descriptor)
  | mapping (key value : Descriptor)
  | annotated (inner : Descriptor) (attachments : List Attachment)
  | model (path : ModelPath)
  | unionOfModels (variants : List ModelPath) (nullable : Bool)
  | unionOfScalars (variants : List Descriptor) (nullable : Bool)
deriving Repr

namespace Descriptor

/-- The descriptor without its outermost attachments. -/
def peel : Descriptor → Descriptor
  | annotated inner _ => inner.peel
  | desc => desc

def isPrimitive (desc : Descriptor) : Bool :=
  match desc.peel with
  | primitive _ => true
  | _ => false

/-- A scalar that crosses the wire unchanged. -/
def isSafePrimitive (desc : Descriptor) : Bool :=
  match desc.peel with
  | primitive kind => kind.isSafe
  | _ => false

/-- A type or its absence. -/
def isOptional (desc : Descriptor) : Bool :=
  match desc.peel with
  | optional _ => true
  | _ => false

def isList (desc : Descriptor) : Bool :=
  match desc.peel with
  | list _ => true
  | _ => false

def isMapping (desc : Descriptor) : Bool :=
  match desc.peel with
  | mapping _ _ => true
  | _ => false

/-- Whether the outermost layer is an attachment. -/
def isAnnotated : Descriptor → Bool
  | annotated _ _ => true
  | _ => false

def isLiteral (desc : Descriptor) : Bool :=
  match desc.peel with
  | literal _ => true
  | _ => false

def isModel (desc : Descriptor) : Bool :=
  match desc.peel with
  | model _ => true
  | _ => false

def isUnionOfModels (desc : Descriptor) : Bool :=
  match desc.peel with
  | unionOfModels _ _ => true
  | _ => false

/-- A union of safe scalars and literals. -/
def isUnionOfScalars (desc : Descriptor) : Bool :=
  match desc.peel with
  | unionOfScalars _ _ => true
  | _ => false

/-- A union of several members one of which is the absence. -/
def isNullableUnion (desc : Descriptor) : Bool :=
  match desc.peel with
  | unionOfModels _ nullable | unionOfScalars _ nullable => nullable
  | _ => false

/-- Whether values need no conversion in either direction. -/
def isPassthrough (desc : Descriptor) : Bool :=
  match desc.peel with
  | primitive kind => kind.isSafe || kind = .absence
  | literal _ | unionOfScalars _ _ => true
  | _ => false

/-- The string-like scalar that can be the key of a mapping. -/
def isMappingKey (desc : Descriptor) : Bool :=
  match desc.peel with
  | primitive kind => kind.isStringLike
  | _ => false

/-- A scalar or an optional scalar under any attachments: what a URL path can hold. -/
def isPathScalar : Descriptor → Bool
  | annotated inner _ | optional inner => inner.isPathScalar
  | primitive _ | literal _ | unionOfScalars _ _ => true
  | list _ | mapping _ _ | model _ | unionOfModels _ _ => false

/-- Every mention of a model, from left to right. -/
def modelMentions : Descriptor → List ModelPath
  | primitive _ | literal _ | unionOfScalars _ _ => []
  | optional inner | list inner | annotated inner _ => inner.modelMentions
  | mapping key value => key.modelMentions ++ value.modelMentions
  | model path => [path]
  | unionOfModels variants _ => variants

/-- The models mentioned, each once, in the order of their first mention. -/
def models (desc : Descriptor) : List ModelPath :=
  desc.modelMentions.eraseDups

/-- Whether there is a union of models at any depth. -/
def hasUnionOfModels : Descriptor → Bool
  | unionOfModels _ _ => true
  | optional inner | list inner | annotated inner _ => inner.hasUnionOfModels
  | mapping _ value => value.hasUnionOfModels
  | primitive _ | literal _ | model _ | unionOfScalars _ _ => false

@[simp]
theorem peel_annotated (inner : Descriptor) (attachments : List Attachment) :
    (annotated inner attachments).peel = inner.peel := rfl

end Descriptor

end SchemaWire
