import SchemaWire.Index.EnumRegistry
import SchemaWire.Proofs.Descriptor.Origin

/-!
Enum tags, as they are written in a type expression and as registration finds them in its
descriptor. Classification keeps a tag unless it stands inside a member of a union of models, of
whose members the descriptor has only the paths.
-/
namespace SchemaWire

namespace Descriptor

/-- Somewhere inside the descriptor the tag is attached to the second descriptor. -/
def Tagged (desc : Descriptor) (tag : EnumTag) (inner : Descriptor) : Prop :=
  ∃ attachments, .enum tag ∈ attachments ∧ (annotated inner attachments).Part desc

variable {tag : EnumTag} {inner : Descriptor}

@[simp]
theorem tagged_optional_iff {content : Descriptor} :
    (optional content).Tagged tag inner ↔ content.Tagged tag inner := by
  simp [Tagged]

@[simp]
theorem tagged_list_iff {element : Descriptor} :
    (list element).Tagged tag inner ↔ element.Tagged tag inner := by
  simp [Tagged]

@[simp]
theorem tagged_mapping_iff {key value : Descriptor} :
    (mapping key value).Tagged tag inner ↔ key.Tagged tag inner ∨ value.Tagged tag inner := by
  simp [Tagged, and_or_left, exists_or]

@[simp]
theorem tagged_annotated_iff {content : Descriptor} {attachments : List Attachment} :
    (annotated content attachments).Tagged tag inner ↔
      (.enum tag ∈ attachments ∧ inner = content) ∨ content.Tagged tag inner := by
  simp only [Tagged, part_annotated_iff, annotated.injEq, and_or_left, exists_or]
  refine or_congr_left ⟨?_, ?_⟩
  · rintro ⟨_, hmem, rfl, rfl⟩
    exact ⟨hmem, rfl⟩
  · rintro ⟨hmem, rfl⟩
    exact ⟨attachments, hmem, rfl, rfl⟩

@[simp]
theorem tagged_unionOfScalars_iff {variants : List Descriptor} {nullable : Bool} :
    (unionOfScalars variants nullable).Tagged tag inner ↔
      ∃ variant ∈ variants, variant.Tagged tag inner := by
  simp only [Tagged, part_unionOfScalars_iff, reduceCtorEq, false_or]
  constructor
  · rintro ⟨attachments, henum, variant, hmem, hpart⟩
    exact ⟨variant, hmem, attachments, henum, hpart⟩
  · rintro ⟨variant, hmem, attachments, henum, hpart⟩
    exact ⟨attachments, henum, variant, hmem, hpart⟩

theorem allTags_eq_flatMap (descs : List Descriptor) :
    enumTags.allTags descs = descs.flatMap enumTags := by
  induction descs with
  | nil => rfl
  | cons desc rest ih => rw [enumTags.allTags, ih, List.flatMap_cons]

/-- Registration finds the tags at any depth, and no others. -/
theorem mem_enumTags_iff (desc : Descriptor) :
    (tag, inner) ∈ desc.enumTags ↔ desc.Tagged tag inner := by
  induction desc using partInduction with
  | primitive kind => simp [enumTags, Tagged]
  | literal value => simp [enumTags, Tagged]
  | model path => simp [enumTags, Tagged]
  | unionOfModels variants nullable => simp [enumTags, Tagged]
  | optional content ih => rw [enumTags, ih, tagged_optional_iff]
  | list element ih => rw [enumTags, ih, tagged_list_iff]
  | mapping key value ihKey ihValue =>
      rw [enumTags, List.mem_append, ihKey, ihValue, tagged_mapping_iff]
  | annotated content attachments ih =>
      rw [enumTags, List.mem_append, ih, tagged_annotated_iff, List.mem_filterMap]
      refine or_congr_left ⟨?_, ?_⟩
      · rintro ⟨attachment, hmem, h⟩
        split at h
        · cases h
          exact ⟨hmem, rfl⟩
        · cases h
      · rintro ⟨hmem, rfl⟩
        exact ⟨.enum tag, hmem, rfl⟩
  | unionOfScalars variants nullable ih =>
      rw [enumTags, allTags_eq_flatMap, List.mem_flatMap, tagged_unionOfScalars_iff]
      exact exists_congr fun variant => and_congr_right fun hmem => ih variant hmem

theorem takesEnumTags_iff {desc : Descriptor} : desc.takesEnumTags = true ↔
    desc.peel = primitive .str ∨ ∃ text, desc.peel = literal (.str text) := by
  rw [takesEnumTags]
  split <;> simp_all

theorem takesEnumTags_eq_false_of_isModel {desc : Descriptor} (h : desc.isModel = true) :
    desc.takesEnumTags = false := by
  obtain ⟨path, hpeel⟩ := isModel_iff.mp h
  rw [takesEnumTags, hpeel]

end Descriptor

namespace TypeExpr

/-- Somewhere inside the expression the tag is attached to the second expression. -/
def Tagged (expr : TypeExpr) (tag : EnumTag) (inner : TypeExpr) : Prop :=
  ∃ attachments, .enum tag ∈ attachments ∧ (annotated inner attachments).Part expr

/-- The tag stands, attached to the second expression, inside a union of models. -/
def LosesTag (expr : TypeExpr) (tag : EnumTag) (inner : TypeExpr) : Prop :=
  ∃ members variants nullable, (union members).Part expr ∧
    (union members).classify = .ok (.unionOfModels variants nullable) ∧
      (union members).Tagged tag inner

variable {tag : EnumTag} {inner : TypeExpr}

@[simp]
theorem tagged_list_iff {element : TypeExpr} :
    (list element).Tagged tag inner ↔ element.Tagged tag inner := by
  simp [Tagged]

@[simp]
theorem tagged_dict_iff {key value : TypeExpr} :
    (dict key value).Tagged tag inner ↔ key.Tagged tag inner ∨ value.Tagged tag inner := by
  simp [Tagged, and_or_left, exists_or]

@[simp]
theorem tagged_annotated_iff {content : TypeExpr} {attachments : List Attachment} :
    (annotated content attachments).Tagged tag inner ↔
      (.enum tag ∈ attachments ∧ inner = content) ∨ content.Tagged tag inner := by
  simp only [Tagged, part_annotated_iff, annotated.injEq, and_or_left, exists_or]
  refine or_congr_left ⟨?_, ?_⟩
  · rintro ⟨_, hmem, rfl, rfl⟩
    exact ⟨hmem, rfl⟩
  · rintro ⟨hmem, rfl⟩
    exact ⟨attachments, hmem, rfl, rfl⟩

/-- A tag inside a union stands inside one of its members, which has a descriptor of its own. -/
theorem Tagged.exists_part {members : List TypeExpr} {parts : List Descriptor}
    (hparts : List.Forall₂ (fun member part => classify member = .ok part)
      (presentMembers members) parts) (h : (TypeExpr.union members).Tagged tag inner) :
    ∃ member ∈ flatten members, member.Tagged tag inner ∧
      ∃ part ∈ parts, member.classify = .ok part := by
  obtain ⟨attachments, henum, hpart⟩ := h
  obtain ⟨member, hmem, hin⟩ := (part_union_iff_flatten rfl).mp hpart
  have hne : member ≠ absence := by
    rintro rfl
    simp [absence] at hin
  exact ⟨member, hmem, ⟨attachments, henum, hin⟩, exists_part_of_mem_flatten hparts hmem hne⟩

theorem LosesTag.of_part {expr part : TypeExpr} (h : part.LosesTag tag inner)
    (hpart : part.Part expr) : expr.LosesTag tag inner := by
  obtain ⟨members, variants, nullable, hunion, hclass, htagged⟩ := h
  exact ⟨members, variants, nullable, hunion.trans hpart, hclass, htagged⟩

theorem LosesTag.tagged {expr : TypeExpr} (h : expr.LosesTag tag inner) :
    expr.Tagged tag inner := by
  obtain ⟨members, _, _, hunion, _, attachments, henum, hpart⟩ := h
  exact ⟨attachments, henum, hpart.trans hunion⟩

/-- A union of several members has the tags of its members if it is not one of models. -/
theorem OfUnion.tagged {nullable : Bool} {parts : List Descriptor} {desc : Descriptor}
    (h : OfUnion nullable parts desc) {part : Descriptor} (hpart : part ∈ parts)
    {innerDesc : Descriptor} (htag : part.Tagged tag innerDesc) :
    desc.Tagged tag innerDesc ∨ ∃ variants nullable, desc = .unionOfModels variants nullable := by
  cases h with
  | absence => cases hpart
  | only => exact Or.inl (List.mem_singleton.mp hpart ▸ htag)
  | optional =>
      rw [Descriptor.tagged_optional_iff]
      exact Or.inl (List.mem_singleton.mp hpart ▸ htag)
  | models => exact Or.inr ⟨_, _, rfl⟩
  | scalars =>
      rw [Descriptor.tagged_unionOfScalars_iff]
      exact Or.inl ⟨part, hpart, htag⟩

/-- In the descriptor a tag is attached to what it was attached to, unless it is lost. -/
theorem Tagged.classify_or_losesTag {expr : TypeExpr} (h : expr.Tagged tag inner)
    {desc : Descriptor} (hclass : expr.classify = .ok desc) :
    (∃ innerDesc, inner.classify = .ok innerDesc ∧ desc.Tagged tag innerDesc) ∨
      expr.LosesTag tag inner := by
  induction expr using flatInduction generalizing desc with
  | primitive | literal | model => simp [Tagged] at h
  | list element ih =>
      obtain ⟨part, hpart, rfl⟩ := map_eq_ok_iff.mp hclass
      rcases ih (tagged_list_iff.mp h) hpart with ⟨innerDesc, hinner, htag⟩ | hloses
      · exact Or.inl ⟨innerDesc, hinner, Descriptor.tagged_list_iff.mpr htag⟩
      · exact Or.inr (hloses.of_part (.list (.self element)))
  | dict key value ihKey ihValue =>
      obtain ⟨keyDesc, valueDesc, hkey, _, hvalue, rfl⟩ := classify_dict_eq_ok_iff.mp hclass
      rcases tagged_dict_iff.mp h with hin | hin
      · rcases ihKey hin hkey with ⟨innerDesc, hinner, htag⟩ | hloses
        · exact Or.inl ⟨innerDesc, hinner, Descriptor.tagged_mapping_iff.mpr (Or.inl htag)⟩
        · exact Or.inr (hloses.of_part (.key (.self key) value))
      · rcases ihValue hin hvalue with ⟨innerDesc, hinner, htag⟩ | hloses
        · exact Or.inl ⟨innerDesc, hinner, Descriptor.tagged_mapping_iff.mpr (Or.inr htag)⟩
        · exact Or.inr (hloses.of_part (.value (.self value) key))
  | union members ih =>
      obtain ⟨parts, hparts, hof⟩ := classify_union_eq_ok_iff.mp hclass
      obtain ⟨member, hmem, hin, part, hpart, hmember⟩ := h.exists_part hparts
      rcases ih member hmem hin hmember with ⟨innerDesc, hinner, htag⟩ | hloses
      · rcases hof.tagged hpart htag with htagged | ⟨variants, nullable, rfl⟩
        · exact Or.inl ⟨innerDesc, hinner, htagged⟩
        · exact Or.inr ⟨members, variants, nullable, .self _, hclass, h⟩
      · exact Or.inr (hloses.of_part (part_union_of_mem_flatten hmem))
  | annotated content attachments ih =>
      obtain ⟨part, hpart, rfl⟩ := map_eq_ok_iff.mp hclass
      rcases tagged_annotated_iff.mp h with ⟨henum, rfl⟩ | hin
      · exact Or.inl ⟨part, hpart, Descriptor.tagged_annotated_iff.mpr (Or.inl ⟨henum, rfl⟩)⟩
      · rcases ih hin hpart with ⟨innerDesc, hinner, htag⟩ | hloses
        · exact Or.inl ⟨innerDesc, hinner, Descriptor.tagged_annotated_iff.mpr (Or.inr htag)⟩
        · exact Or.inr (hloses.of_part (.annotated (.self content) attachments))

/-- Whatever inside a model carries a tag is that model. -/
theorem Tagged.isModel {expr : TypeExpr} (h : expr.Tagged tag inner) {desc : Descriptor}
    (hclass : expr.classify = .ok desc) (hmodel : desc.isModel = true) :
    ∃ innerDesc, inner.classify = .ok innerDesc ∧ innerDesc.isModel = true := by
  induction expr using flatInduction generalizing desc with
  | primitive | literal | model => simp [Tagged] at h
  | list element ih =>
      obtain ⟨part, _, rfl⟩ := map_eq_ok_iff.mp hclass
      cases hmodel
  | dict key value ihKey ihValue =>
      obtain ⟨keyDesc, valueDesc, _, _, _, rfl⟩ := classify_dict_eq_ok_iff.mp hclass
      cases hmodel
  | union members ih =>
      obtain ⟨parts, hparts, hof⟩ := classify_union_eq_ok_iff.mp hclass
      obtain ⟨member, hmem, hin, part, hpart, hmember⟩ := h.exists_part hparts
      cases hof with
      | only =>
          obtain rfl := List.mem_singleton.mp hpart
          exact ih member hmem hin hmember hmodel
      | _ => cases hmodel
  | annotated content attachments ih =>
      obtain ⟨part, hpart, rfl⟩ := map_eq_ok_iff.mp hclass
      rcases tagged_annotated_iff.mp h with ⟨_, rfl⟩ | hin
      · exact ⟨part, hpart, hmodel⟩
      · exact ih hin hpart hmodel

/-- A tag is lost only on a model, where no tag may stand. -/
theorem LosesTag.isModel {expr : TypeExpr} (h : expr.LosesTag tag inner) :
    ∃ innerDesc, inner.classify = .ok innerDesc ∧ innerDesc.isModel = true := by
  obtain ⟨members, variants, nullable, _, hclass, htagged⟩ := h
  obtain ⟨parts, hparts, hof⟩ := classify_union_eq_ok_iff.mp hclass
  obtain ⟨member, hmem, hin, part, hpart, hmember⟩ := htagged.exists_part hparts
  apply hin.isModel hmember
  cases hof with
  | only =>
      -- the only part would be the union, but its member is none
      obtain rfl := List.mem_singleton.mp hpart
      have hne : member ≠ absence := by
        rintro rfl
        cases hmember
      cases ownsAbsence_eq_false_of_classify (isUnion_of_mem_flatten hmem) hne hmember
  | models _ hmodels => exact hmodels part hpart

end TypeExpr

end SchemaWire
