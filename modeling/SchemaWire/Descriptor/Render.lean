import SchemaWire.Descriptor.Basic
import SchemaWire.TypeScript.Printer

/-!
The TypeScript type of a descriptor. Models go by their short name and are never inlined; the
absence and `null` are one type.
-/
namespace SchemaWire

open TypeScript (Ty)

def PrimitiveKind.render : PrimitiveKind → Ty
  | str | url => .primitive .string
  | int | float => .primitive .number
  | bool => .primitive .boolean
  | datetime => .named "Date"
  | absence => .primitive .null

def LiteralValue.render : LiteralValue → TypeScript.Literal
  | bool value => .bool value
  | int value => .int value
  | str text => .string text
  | null => .null

/-- Whether the type is `null`, as a literal or as the predefined type. -/
def isNullTy : Ty → Bool
  | .literal .null | .primitive .null => true
  | _ => false

/-- The type of a union: each distinct member once, and `null` last if any member is `null` or
the union is nullable. -/
def renderUnion (members : List Ty) (nullable : Bool) : Ty :=
  let nullable := nullable || members.any isNullTy
  match (members.filter fun member => !isNullTy member).eraseDups with
  | [] => .primitive .null
  | [only] => if nullable then only.nullable else only
  | several => if nullable then (Ty.union several).nullable else .union several

namespace Descriptor

mutual
def render : Descriptor → Ty
  | .primitive kind => kind.render
  | .literal value => .literal value.render
  | .optional inner => inner.render.nullable
  | .list element => .array element.render
  | .mapping key value => .record key.render value.render
  | .annotated inner _ => inner.render
  | .model path => .named path.shortName
  | .unionOfModels variants nullable =>
      renderUnion (variants.map fun path => .named path.shortName) nullable
  | .unionOfScalars variants nullable => renderUnion (renderAll variants) nullable

def renderAll : List Descriptor → List Ty
  | [] => []
  | desc :: rest => desc.render :: renderAll rest
end

theorem renderAll_eq_map (descs : List Descriptor) : renderAll descs = descs.map render := by
  induction descs with
  | nil => rfl
  | cons desc rest ih => simp [renderAll, ih]

end Descriptor

end SchemaWire
