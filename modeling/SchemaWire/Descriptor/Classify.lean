import SchemaWire.Descriptor.Basic
import SchemaWire.Error

/-!
Classification: every type expression has one descriptor or is unsupported. A union is read
through its members once nested unions are flattened and repeated members dropped; the absence
among them only says that the union is nullable.
-/
namespace SchemaWire

namespace TypeExpr

/-- The members of a union, those of nested unions in their place. -/
def flatten : List TypeExpr → List TypeExpr
  | [] => []
  | .union nested :: rest => flatten nested ++ flatten rest
  | member :: rest => member :: flatten rest

def modelVariants (descs : List Descriptor) : List ModelPath :=
  descs.filterMap fun desc =>
    match desc.peel with
    | .model path => some path
    | _ => none

/-- The results of a list, or its first error. -/
def sequence {α : Type} : List (Gen α) → Gen (List α)
  | [] => .ok []
  | result :: rest => do
      let value ← result
      let values ← sequence rest
      return value :: values

/-- The descriptor of a union of several distinct members other than the absence. -/
def unionOfSeveral (whole : TypeExpr) (nullable : Bool) (descs : List Descriptor) :
    Gen Descriptor :=
  if descs.all Descriptor.isModel then
    .ok (.unionOfModels (modelVariants descs) nullable)
  else if descs.all fun desc => desc.isSafePrimitive || desc.isLiteral then
    .ok (.unionOfScalars descs nullable)
  else if descs.any Descriptor.isModel then
    .error (.unlocated whole.display .modelsMixed)
  else
    .error (.unlocated whole.display .membersUnsupported)

/-- The descriptor of a union, from its flattened members with the result of classifying each. -/
def unionOf (whole : TypeExpr) (members : List (TypeExpr × Gen Descriptor)) : Gen Descriptor :=
  let distinct := members.eraseDupsBy fun a b => a.1 == b.1
  let nullable := distinct.any fun member => member.1 == absence
  match distinct.filter (fun member => member.1 != absence), nullable with
  | [], false => .error (.unlocated whole.display .emptyUnion)
  | [], true => .ok (.primitive .absence)
  | [only], false => only.2
  | [only], true => Descriptor.optional <$> only.2
  | several, nullable => do
      let descs ← sequence (several.map Prod.snd)
      unionOfSeveral whole nullable descs

mutual
def classify : TypeExpr → Gen Descriptor
  | .primitive kind => .ok (.primitive kind)
  | .literal value => .ok (.literal value)
  | .list element => Descriptor.list <$> classify element
  | .dict key value => do
      let keyDesc ← classify key
      if keyDesc.isMappingKey then
        let valueDesc ← classify value
        return .mapping keyDesc valueDesc
      else
        throw (.unlocated (TypeExpr.dict key value).display (.mappingKey key.display))
  | .union members => unionOf (.union members) (classifyMembers members)
  | .annotated inner attachments =>
      (fun desc => Descriptor.annotated desc attachments) <$> classify inner
  | .model path => .ok (.model path)

/-- The flattened members of a union, each with the result of classifying it. -/
def classifyMembers : List TypeExpr → List (TypeExpr × Gen Descriptor)
  | [] => []
  | .union nested :: rest => classifyMembers nested ++ classifyMembers rest
  | member :: rest => (member, classify member) :: classifyMembers rest
end

theorem classifyMembers_eq_map (members : List TypeExpr) :
    classifyMembers members = (flatten members).map fun member => (member, classify member) := by
  fun_induction flatten members with
  | case1 => simp [classifyMembers]
  | case2 nested rest ihNested ihRest => simp [classifyMembers, ihNested, ihRest]
  | case3 member rest hnot ih => simp [classifyMembers, ih]

/-- A union is classified through its flattened members. -/
theorem classify_union (members : List TypeExpr) :
    classify (.union members) =
      unionOf (.union members) ((flatten members).map fun member => (member, classify member)) := by
  rw [classify, classifyMembers_eq_map]

end TypeExpr

end SchemaWire
