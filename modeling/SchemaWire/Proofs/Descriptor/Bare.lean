import SchemaWire.Proofs.Descriptor.Part

/-!
Descriptors without their attachments. Rendering, registration and conversion all look through
attachments, at any depth: each of them does with a descriptor what it does with the bare one.
-/
namespace SchemaWire

namespace Descriptor

theorem render_peel (desc : Descriptor) : desc.peel.render = desc.render := by
  fun_induction peel desc with
  | case1 inner attachments ih => exact ih
  | case2 => rfl

/-- The descriptor without its attachments. The variants of a union of scalars have no parts that
could have any. -/
def bare : Descriptor → Descriptor
  | annotated inner _ => inner.bare
  | optional inner => .optional inner.bare
  | list element => .list element.bare
  | mapping key value => .mapping key.bare value.bare
  | unionOfScalars variants nullable => .unionOfScalars (variants.map peel) nullable
  | primitive kind => .primitive kind
  | literal value => .literal value
  | model path => .model path
  | unionOfModels variants nullable => .unionOfModels variants nullable

@[simp]
theorem isModel_bare (desc : Descriptor) : desc.bare.isModel = desc.isModel := by
  fun_induction bare desc with
  | case1 inner attachments ih => exact ih
  | _ => rfl

@[simp]
theorem isMappingKey_bare (desc : Descriptor) : desc.bare.isMappingKey = desc.isMappingKey := by
  fun_induction bare desc with
  | case1 inner attachments ih => exact ih
  | _ => rfl

@[simp]
theorem isSafePrimitive_bare (desc : Descriptor) :
    desc.bare.isSafePrimitive = desc.isSafePrimitive := by
  fun_induction bare desc with
  | case1 inner attachments ih => exact ih
  | _ => rfl

@[simp]
theorem isLiteral_bare (desc : Descriptor) : desc.bare.isLiteral = desc.isLiteral := by
  fun_induction bare desc with
  | case1 inner attachments ih => exact ih
  | _ => rfl

/-- Scalars and literals have attachments on the outside only. -/
theorem peel_eq_bare_of_scalar {desc : Descriptor}
    (h : (desc.isSafePrimitive || desc.isLiteral) = true) : desc.peel = desc.bare := by
  fun_induction bare desc with
  | case1 inner attachments ih => exact ih h
  | case6 | case7 => rfl
  | _ => simp [isSafePrimitive, isLiteral, peel] at h

@[simp]
theorem render_bare (desc : Descriptor) : desc.bare.render = desc.render := by
  fun_induction bare desc with
  | case1 inner attachments ih => exact ih
  | case2 inner ih => rw [render, render, ih]
  | case3 element ih => rw [render, render, ih]
  | case4 key value ihKey ihValue => rw [render, render, ihKey, ihValue]
  | case5 variants nullable =>
      simp only [render, renderAll_eq_map, List.map_map, Function.comp_def, render_peel]
  | _ => rfl

@[simp]
theorem modelMentions_bare (desc : Descriptor) : desc.bare.modelMentions = desc.modelMentions := by
  fun_induction bare desc with
  | case4 key value ihKey ihValue => rw [modelMentions, modelMentions, ihKey, ihValue]
  | case1 _ _ ih | case2 _ ih | case3 _ ih => exact ih
  | _ => rfl

end Descriptor

@[simp]
theorem TypeExpr.modelVariants_bare (descs : List Descriptor) :
    modelVariants (descs.map Descriptor.bare) = modelVariants descs := by
  rw [modelVariants, modelVariants, List.filterMap_map]
  congr 1
  funext desc
  rw [Function.comp_apply]
  fun_induction Descriptor.bare desc with
  | case1 inner attachments ih => exact ih
  | _ => rfl

/-- Attachments make no difference to the conversion of values. -/
theorem TypeIndex.convert_bare (index : TypeIndex) (dir : Direction) (desc : Descriptor)
    (src : TypeScript.Expr) (depth : Nat) :
    index.convert dir desc.bare src depth = index.convert dir desc src depth := by
  fun_induction Descriptor.bare desc generalizing src depth with
  | case1 inner attachments ih => exact ih src depth
  | case2 inner ih => rw [convert, convert, ih]
  | case3 element ih => rw [convert, convert, ih, Descriptor.render_bare]
  | case4 key value ihKey ihValue =>
      rw [convert, convert, ihValue, Descriptor.render_bare, Descriptor.render_bare]
  | _ => simp only [convert, convertScalar_unionOfScalars]

end SchemaWire
