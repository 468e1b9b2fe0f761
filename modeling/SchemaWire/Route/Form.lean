import SchemaWire.Index.Basic
import SchemaWire.Schema.Document

/-!
Forms of routes: an object type with every field that a route matches or sends, widened so that
a form can be typed while it is filled in.
-/
namespace SchemaWire

open TypeScript (Ty)

/-- The type of a form field: the field's own type if it is nullable as declared, otherwise the
type extended by `null` and `undefined`. -/
def ObjectField.widened (field : ObjectField) : Ty :=
  if field.descriptor.isOptional || field.descriptor.isNullableUnion then
    field.ty
  else
    match field.ty.nullable with
    | .union members => .union (members ++ [.primitive .undefined])
    | other => .union [other, .primitive .undefined]

def ObjectField.inForm (field : ObjectField) : ObjectField :=
  ⟨field.name, field.descriptor, field.widened, none⟩

namespace RouteDef

def invalid {α : Type} (route : RouteDef) (fault : RouteFault) : Gen α :=
  .error (.invalidRoute route.handler fault)

/-- The results of the route, its faults as errors. -/
def lift {α : Type} (route : RouteDef) : Except RouteFault α → Gen α
  | .ok value => .ok value
  | .error fault => route.invalid fault

/-- Adds form fields to those already there. A field of a name already there has to have the
same type and is not added again. -/
def mergeFields (merged : List ObjectField) :
    List ObjectField → Except RouteFault (List ObjectField)
  | [] => .ok merged
  | field :: rest =>
      match merged.find? fun earlier => earlier.name == field.name with
      | none => mergeFields (merged ++ [field]) rest
      | some earlier =>
          if earlier.ty = field.ty then mergeFields merged rest
          else .error (.fieldTypesDiffer field.name earlier.ty.print field.ty.print)

/-- The object type of a model of the route, if the route has this model. -/
def object? (index : TypeIndex) : Option ModelPath → Gen (Option ObjectType)
  | none => .ok none
  | some path => some <$> index.requireObject path

/-- The fields of an object type that may be missing. -/
def fieldsOf : Option ObjectType → List ObjectField
  | none => []
  | some object => object.fields

/-- The form type of the route: the match-info fields, then the body fields. There is none where
nothing is matched or sent. -/
def form (index : TypeIndex) (route : RouteDef) : Gen (Option ObjectType) := do
  let matchInfo ← object? index route.matchInfo
  let body ← object? index route.body
  if route.hasForm then
    let fields := (fieldsOf matchInfo ++ fieldsOf body).map ObjectField.inForm
    let merged ← route.lift (mergeFields [] fields)
    return some ⟨route.formName, none, merged, false⟩
  else
    return none

end RouteDef

end SchemaWire
