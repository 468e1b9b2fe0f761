import SchemaWire.Proofs.Descriptor.Members

/-!
Well-formed descriptors. Rendering, registration and conversion rely on facts about descriptors
that none of them checks: keys of mappings are string-like, unions have several members, unions of
scalars hold safe scalars and literals only, and an optional type is not absent by itself. The main
statement is that classification gives well-formed descriptors only.
-/
namespace SchemaWire

namespace Descriptor

/-- Whether the outermost layer gives the absence among other values or alone. -/
def ownsAbsence : Descriptor → Bool
  | primitive .absence | optional _ | unionOfModels _ _ | unionOfScalars _ _ => true
  | _ => false

/-- A descriptor whose parts fit together at every depth. -/
def WellFormed : Descriptor → Prop
  | primitive _ | literal _ | model _ => True
  | optional inner => inner.ownsAbsence = false ∧ inner.WellFormed
  | list element => element.WellFormed
  | mapping key value => key.isMappingKey = true ∧ key.WellFormed ∧ value.WellFormed
  | annotated inner _ => inner.WellFormed
  | unionOfModels variants _ => 2 ≤ variants.length
  | unionOfScalars variants _ =>
      2 ≤ variants.length ∧
        ∀ variant ∈ variants, (variant.isSafePrimitive || variant.isLiteral) = true

/-- The keys of mappings are texts or addresses. -/
theorem peel_of_isMappingKey {desc : Descriptor} (h : desc.isMappingKey = true) :
    desc.peel = primitive .str ∨ desc.peel = primitive .url := by
  rw [isMappingKey] at h
  cases hpeel : desc.peel with
  | primitive kind => cases kind <;> simp_all [PrimitiveKind.isStringLike]
  | _ => simp [hpeel] at h

end Descriptor

namespace TypeExpr

theorem length_modelVariants {descs : List Descriptor}
    (hmodels : ∀ desc ∈ descs, desc.isModel = true) :
    (modelVariants descs).length = descs.length := by
  refine List.filterMap_length_eq_length.mpr fun desc hdesc => ?_
  obtain ⟨path, hpeel⟩ := Descriptor.isModel_iff.mp (hmodels desc hdesc)
  simp [hpeel]

/-- Only a union and the absence itself are classified as something that owns the absence. -/
theorem ownsAbsence_eq_false_of_classify {expr : TypeExpr} {desc : Descriptor}
    (hunion : expr.isUnion = false) (hne : expr ≠ absence)
    (h : expr.classify = .ok desc) : desc.ownsAbsence = false := by
  cases expr with
  | primitive kind =>
      cases h
      cases kind <;> first | rfl | exact absurd rfl hne
  | literal value => cases h; rfl
  | list element =>
      obtain ⟨part, _, rfl⟩ := map_eq_ok_iff.mp h
      rfl
  | dict key value =>
      obtain ⟨keyDesc, valueDesc, _, _, _, rfl⟩ := classify_dict_eq_ok_iff.mp h
      rfl
  | union members => cases hunion
  | annotated inner attachments =>
      obtain ⟨part, _, rfl⟩ := map_eq_ok_iff.mp h
      rfl
  | model path => cases h; rfl

theorem ownsAbsence_of_mem_presentMembers {members : List TypeExpr} {member : TypeExpr}
    (hmem : member ∈ presentMembers members) {desc : Descriptor}
    (hclass : member.classify = .ok desc) : desc.ownsAbsence = false := by
  obtain ⟨hflat, hne⟩ := mem_presentMembers_iff.mp hmem
  exact ownsAbsence_eq_false_of_classify (isUnion_of_mem_flatten hflat) hne hclass

/-- A union is well-formed if its parts are, and no part owns the absence that it may add. -/
theorem OfUnion.wellFormed {nullable : Bool} {parts : List Descriptor} {desc : Descriptor}
    (h : OfUnion nullable parts desc)
    (hparts : ∀ part ∈ parts, part.ownsAbsence = false ∧ part.WellFormed) : desc.WellFormed := by
  cases h with
  | absence => trivial
  | only => exact (hparts desc List.mem_cons_self).2
  | optional _ part => exact hparts part List.mem_cons_self
  | models hlength hmodels =>
      rw [Descriptor.WellFormed, length_modelVariants hmodels]
      exact hlength
  | scalars hlength hscalars => exact ⟨hlength, hscalars⟩

/-- Classification gives well-formed descriptors only. -/
theorem wellFormed_of_classify {expr : TypeExpr} {desc : Descriptor}
    (h : expr.classify = .ok desc) : desc.WellFormed := by
  induction expr using flatInduction generalizing desc with
  | primitive | literal | model =>
      cases h
      trivial
  | list element ih =>
      obtain ⟨part, hpart, rfl⟩ := map_eq_ok_iff.mp h
      rw [Descriptor.WellFormed]
      exact ih hpart
  | dict key value ihKey ihValue =>
      obtain ⟨keyDesc, valueDesc, hkey, hstring, hvalue, rfl⟩ := classify_dict_eq_ok_iff.mp h
      exact ⟨hstring, ihKey hkey, ihValue hvalue⟩
  | union members ih =>
      obtain ⟨parts, hparts, hof⟩ := classify_union_eq_ok_iff.mp h
      apply hof.wellFormed
      intro part hpart
      obtain ⟨member, hmember, hclass⟩ := exists_left_of_forall₂ hparts part hpart
      have hflat := (mem_presentMembers_iff.mp hmember).1
      exact ⟨ownsAbsence_of_mem_presentMembers hmember hclass, ih member hflat hclass⟩
  | annotated inner attachments ih =>
      obtain ⟨part, hpart, rfl⟩ := map_eq_ok_iff.mp h
      rw [Descriptor.WellFormed]
      exact ih hpart

end TypeExpr

end SchemaWire
