import SchemaWire.Proofs.Wire.Conversion

/-!
Parts of descriptors, at any depth. In a well-formed descriptor the models and the unions of models
among the parts are the ones that registration follows and that conversions tell apart; none hides
inside a union of scalars.
-/
namespace SchemaWire.Descriptor

/-- The first descriptor stands somewhere inside the second, or is the second. -/
inductive Part : Descriptor → Descriptor → Prop where
  | self (desc : Descriptor) : Part desc desc
  | optional {part inner : Descriptor} (h : Part part inner) : Part part (.optional inner)
  | list {part element : Descriptor} (h : Part part element) : Part part (.list element)
  | key {part key : Descriptor} (h : Part part key) (value : Descriptor) :
      Part part (.mapping key value)
  | value {part value : Descriptor} (h : Part part value) (key : Descriptor) :
      Part part (.mapping key value)
  | annotated {part inner : Descriptor} (h : Part part inner) (attachments : List Attachment) :
      Part part (.annotated inner attachments)
  | member {part variant : Descriptor} {variants : List Descriptor} (h : Part part variant)
      (hmem : variant ∈ variants) (nullable : Bool) : Part part (.unionOfScalars variants nullable)

theorem Part.trans {first second third : Descriptor} (hfirst : first.Part second)
    (hsecond : second.Part third) : first.Part third := by
  induction hsecond with
  | self => exact hfirst
  | optional _ ih => exact .optional ih
  | list _ ih => exact .list ih
  | key _ value ih => exact .key ih value
  | value _ key ih => exact .value ih key
  | annotated _ attachments ih => exact .annotated ih attachments
  | member _ hmem nullable ih => exact .member ih hmem nullable

/-- A descriptor has a property if it follows for each shape from its parts, for a union of scalars
from its variants. -/
@[elab_as_elim]
theorem partInduction {motive : Descriptor → Prop}
    (primitive : ∀ kind, motive (.primitive kind))
    (literal : ∀ value, motive (.literal value))
    (optional : ∀ inner, motive inner → motive (.optional inner))
    (list : ∀ element, motive element → motive (.list element))
    (mapping : ∀ key value, motive key → motive value → motive (.mapping key value))
    (annotated : ∀ inner attachments, motive inner → motive (.annotated inner attachments))
    (model : ∀ path, motive (.model path))
    (unionOfModels : ∀ variants nullable, motive (.unionOfModels variants nullable))
    (unionOfScalars : ∀ variants nullable, (∀ variant ∈ variants, motive variant) →
      motive (.unionOfScalars variants nullable)) (desc : Descriptor) : motive desc :=
  @Descriptor.rec motive (fun variants => ∀ variant ∈ variants, motive variant) primitive literal
    optional list mapping annotated model unionOfModels unionOfScalars (List.forall_mem_nil _)
    (fun _ _ hhead hrest => List.forall_mem_cons.mpr ⟨hhead, hrest⟩) desc

/-- The descriptor names the model somewhere, by itself or as a variant of a union. -/
def Names (desc : Descriptor) (path : ModelPath) : Prop :=
  (model path).Part desc ∨
    ∃ variants nullable, (unionOfModels variants nullable).Part desc ∧ path ∈ variants

/-! The parts of a descriptor, by its outermost layer. -/

@[simp]
theorem part_primitive_iff {part : Descriptor} {kind : PrimitiveKind} :
    part.Part (primitive kind) ↔ part = primitive kind :=
  ⟨fun h => by cases h; rfl, fun h => h ▸ .self _⟩

@[simp]
theorem part_literal_iff {part : Descriptor} {value : LiteralValue} :
    part.Part (literal value) ↔ part = literal value :=
  ⟨fun h => by cases h; rfl, fun h => h ▸ .self _⟩

@[simp]
theorem part_model_iff {part : Descriptor} {path : ModelPath} :
    part.Part (model path) ↔ part = model path :=
  ⟨fun h => by cases h; rfl, fun h => h ▸ .self _⟩

@[simp]
theorem part_unionOfModels_iff {part : Descriptor} {variants : List ModelPath} {nullable : Bool} :
    part.Part (unionOfModels variants nullable) ↔ part = unionOfModels variants nullable :=
  ⟨fun h => by cases h; rfl, fun h => h ▸ .self _⟩

@[simp]
theorem part_optional_iff {part inner : Descriptor} :
    part.Part (optional inner) ↔ part = optional inner ∨ part.Part inner :=
  ⟨fun h => by cases h <;> simp_all, fun h => h.elim (· ▸ .self _) .optional⟩

@[simp]
theorem part_annotated_iff {part inner : Descriptor} {attachments : List Attachment} :
    part.Part (annotated inner attachments) ↔
      part = annotated inner attachments ∨ part.Part inner :=
  ⟨fun h => by cases h <;> simp_all, fun h => h.elim (· ▸ .self _) (.annotated · _)⟩

@[simp]
theorem part_list_iff {part element : Descriptor} :
    part.Part (list element) ↔ part = list element ∨ part.Part element :=
  ⟨fun h => by cases h <;> simp_all, fun h => h.elim (· ▸ .self _) .list⟩

@[simp]
theorem part_mapping_iff {part key value : Descriptor} :
    part.Part (mapping key value) ↔
      part = mapping key value ∨ part.Part key ∨ part.Part value :=
  ⟨fun h => by cases h <;> simp_all,
    fun h => h.elim (· ▸ .self _) (Or.elim · (.key · _) (.value · _))⟩

@[simp]
theorem part_unionOfScalars_iff {part : Descriptor} {variants : List Descriptor}
    {nullable : Bool} : part.Part (unionOfScalars variants nullable) ↔
      part = unionOfScalars variants nullable ∨ ∃ variant ∈ variants, part.Part variant := by
  constructor
  · intro h
    cases h with
    | self => exact Or.inl rfl
    | member h hmem => exact Or.inr ⟨_, hmem, h⟩
  · rintro (rfl | ⟨variant, hmem, h⟩)
    · exact .self _
    · exact .member h hmem nullable

theorem modelMentions_peel (desc : Descriptor) : desc.peel.modelMentions = desc.modelMentions := by
  fun_induction peel desc with
  | case1 inner attachments ih => exact ih
  | case2 => rfl

theorem peel_of_scalar {desc : Descriptor}
    (h : (desc.isSafePrimitive || desc.isLiteral) = true) :
    (∃ kind, desc.peel = primitive kind ∧ kind.isSafe = true) ∨
      ∃ value, desc.peel = literal value := by
  rw [isSafePrimitive, isLiteral] at h
  cases hpeel : desc.peel with
  | primitive kind => exact Or.inl ⟨kind, rfl, by simpa [hpeel] using h⟩
  | literal value => exact Or.inr ⟨value, rfl⟩
  | _ => simp [hpeel] at h

/-- Under their attachments, scalars and literals have no other parts. -/
theorem Part.peel_eq {part desc : Descriptor} (h : part.Part desc)
    (hscalar : (desc.isSafePrimitive || desc.isLiteral) = true) : part.peel = desc.peel := by
  induction h with
  | self => rfl
  | annotated _ attachments ih => exact ih hscalar
  | _ => simp [isSafePrimitive, isLiteral, peel] at hscalar

/-- Scalars and literals mention no model in any of their parts. -/
theorem Part.mentions_eq_nil {part desc : Descriptor} (h : part.Part desc)
    (hscalar : (desc.isSafePrimitive || desc.isLiteral) = true) :
    part.modelMentions = [] ∧ part.modelUnions = [] := by
  rw [← modelMentions_peel, ← modelUnions_peel, h.peel_eq hscalar]
  rcases peel_of_scalar hscalar with ⟨kind, hpeel, _⟩ | ⟨value, hpeel⟩ <;>
    simp [hpeel, modelMentions, modelUnions]

theorem wellFormed_peel (desc : Descriptor) : desc.peel.WellFormed ↔ desc.WellFormed := by
  fun_induction peel desc with
  | case1 inner attachments ih => exact ih
  | case2 => rfl

theorem wellFormed_of_scalar {desc : Descriptor}
    (h : (desc.isSafePrimitive || desc.isLiteral) = true) : desc.WellFormed := by
  rw [← wellFormed_peel]
  rcases peel_of_scalar h with ⟨kind, hpeel, _⟩ | ⟨value, hpeel⟩ <;> simp [hpeel, WellFormed]

/-- What fits together fits together at every depth. -/
theorem Part.wellFormed {part desc : Descriptor} (h : part.Part desc) (hwell : desc.WellFormed) :
    part.WellFormed := by
  induction h with
  | self => exact hwell
  | optional _ ih => exact ih hwell.2
  | list _ ih => exact ih hwell
  | key _ value ih => exact ih hwell.2.1
  | value _ key ih => exact ih hwell.2.2
  | annotated _ attachments ih => exact ih hwell
  | member _ hmem nullable ih => exact ih (wellFormed_of_scalar (hwell.2 _ hmem))

/-- Whatever a part mentions, the whole mentions. -/
theorem Part.mentions_subset {part desc : Descriptor} (h : part.Part desc)
    (hwell : desc.WellFormed) :
    part.modelMentions ⊆ desc.modelMentions ∧ part.modelUnions ⊆ desc.modelUnions := by
  induction h with
  | self => exact ⟨List.Subset.refl _, List.Subset.refl _⟩
  | optional _ ih => exact ih hwell.2
  | list _ ih => exact ih hwell
  | key _ value ih =>
      obtain ⟨hmentions, hunions⟩ := ih hwell.2.1
      exact ⟨List.subset_append_of_subset_left _ hmentions,
        List.subset_append_of_subset_left _ hunions⟩
  | value _ key ih =>
      obtain ⟨hmentions, hunions⟩ := ih hwell.2.2
      exact ⟨List.subset_append_of_subset_right _ hmentions,
        List.subset_append_of_subset_right _ hunions⟩
  | annotated _ attachments ih => exact ih hwell
  | member hpart hmem nullable =>
      obtain ⟨hmentions, hunions⟩ := hpart.mentions_eq_nil (hwell.2 _ hmem)
      rw [hmentions, hunions]
      exact ⟨List.nil_subset _, List.nil_subset _⟩

theorem Names.of_part {part desc : Descriptor} {path : ModelPath} (h : part.Names path)
    (hpart : part.Part desc) : desc.Names path :=
  h.imp (·.trans hpart) fun ⟨variants, nullable, hin, hmem⟩ =>
    ⟨variants, nullable, hin.trans hpart, hmem⟩

theorem names_of_mem_modelMentions {desc : Descriptor} {path : ModelPath}
    (h : path ∈ desc.modelMentions) : desc.Names path := by
  fun_induction modelMentions desc with
  | case4 inner ih => exact (ih h).of_part (.optional (.self inner))
  | case5 inner ih => exact (ih h).of_part (.list (.self inner))
  | case6 inner attachments ih => exact (ih h).of_part (.annotated (.self inner) attachments)
  | case7 key value ihKey ihValue =>
      rcases List.mem_append.mp h with hin | hin
      · exact (ihKey hin).of_part (.key (.self key) value)
      · exact (ihValue hin).of_part (.value (.self value) key)
  | case8 other =>
      obtain rfl := List.mem_singleton.mp h
      exact Or.inl (.self _)
  | case9 variants nullable => exact Or.inr ⟨variants, nullable, .self _, h⟩
  | _ => cases h

/-- The references of a descriptor are the models that it names. -/
theorem mem_models_iff_names {desc : Descriptor} (hwell : desc.WellFormed) {path : ModelPath} :
    path ∈ desc.models ↔ desc.Names path := by
  rw [mem_models]
  constructor
  · exact names_of_mem_modelMentions
  · rintro (hpart | ⟨variants, nullable, hpart, hmem⟩)
    · exact (hpart.mentions_subset hwell).1 List.mem_cons_self
    · exact (hpart.mentions_subset hwell).1 hmem

theorem exists_part_of_mem_modelUnions {desc : Descriptor} {variants : List ModelPath}
    (h : variants ∈ desc.modelUnions) :
    ∃ nullable, (unionOfModels variants nullable).Part desc := by
  fun_induction modelUnions desc with
  | case1 members nullable =>
      obtain rfl := List.mem_singleton.mp h
      exact ⟨nullable, .self _⟩
  | case2 inner ih => exact (ih h).imp fun _ hpart => .optional hpart
  | case3 inner ih => exact (ih h).imp fun _ hpart => .list hpart
  | case4 inner attachments ih => exact (ih h).imp fun _ hpart => .annotated hpart attachments
  | case5 key value ihKey ihValue =>
      rcases List.mem_append.mp h with hin | hin
      · exact (ihKey hin).imp fun _ hpart => .key hpart value
      · exact (ihValue hin).imp fun _ hpart => .value hpart key
  | _ => cases h

/-- The unions of models that conversions tell apart are all those inside the descriptor. -/
theorem mem_modelUnions_iff {desc : Descriptor} (hwell : desc.WellFormed)
    {variants : List ModelPath} :
    variants ∈ desc.modelUnions ↔ ∃ nullable, (unionOfModels variants nullable).Part desc :=
  ⟨exists_part_of_mem_modelUnions, fun ⟨_, hpart⟩ =>
    (hpart.mentions_subset hwell).2 List.mem_cons_self⟩

end SchemaWire.Descriptor
