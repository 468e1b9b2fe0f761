import SchemaWire.Proofs.Descriptor.Part

/-!
What a descriptor takes over from its type expression. Classification rebuilds unions from their
flattened members, and whether these are models or scalars is told from their descriptors without
attachments. The main statement is that nevertheless every part of a descriptor is in order, and
that no mention of a model is lost and none is made up.
-/
namespace SchemaWire

namespace TypeExpr

/-- The first expression stands somewhere inside the second, or is the second. -/
inductive Part : TypeExpr → TypeExpr → Prop where
  | self (expr : TypeExpr) : Part expr expr
  | list {part element : TypeExpr} (h : Part part element) : Part part (.list element)
  | key {part key : TypeExpr} (h : Part part key) (value : TypeExpr) : Part part (.dict key value)
  | value {part value : TypeExpr} (h : Part part value) (key : TypeExpr) :
      Part part (.dict key value)
  | member {part member : TypeExpr} {members : List TypeExpr} (h : Part part member)
      (hmem : member ∈ members) : Part part (.union members)
  | annotated {part inner : TypeExpr} (h : Part part inner) (attachments : List Attachment) :
      Part part (.annotated inner attachments)

theorem Part.trans {first second third : TypeExpr} (hfirst : first.Part second)
    (hsecond : second.Part third) : first.Part third := by
  induction hsecond with
  | self => exact hfirst
  | list _ ih => exact .list ih
  | key _ value ih => exact .key ih value
  | value _ key ih => exact .value ih key
  | member _ hmem ih => exact .member ih hmem
  | annotated _ attachments ih => exact .annotated ih attachments

/-! The parts of an expression other than itself, by its outermost layer. -/

@[simp]
theorem part_primitive_iff {part : TypeExpr} {kind : PrimitiveKind} :
    part.Part (primitive kind) ↔ part = primitive kind :=
  ⟨fun h => by cases h; rfl, fun h => h ▸ .self _⟩

@[simp]
theorem part_literal_iff {part : TypeExpr} {value : LiteralValue} :
    part.Part (literal value) ↔ part = literal value :=
  ⟨fun h => by cases h; rfl, fun h => h ▸ .self _⟩

@[simp]
theorem part_model_iff {part : TypeExpr} {path : ModelPath} :
    part.Part (model path) ↔ part = model path :=
  ⟨fun h => by cases h; rfl, fun h => h ▸ .self _⟩

@[simp]
theorem part_list_iff {part element : TypeExpr} :
    part.Part (list element) ↔ part = list element ∨ part.Part element :=
  ⟨fun h => by cases h <;> simp_all, fun h => h.elim (· ▸ .self _) .list⟩

@[simp]
theorem part_dict_iff {part key value : TypeExpr} :
    part.Part (dict key value) ↔ part = dict key value ∨ part.Part key ∨ part.Part value :=
  ⟨fun h => by cases h <;> simp_all,
    fun h => h.elim (· ▸ .self _) (Or.elim · (.key · _) (.value · _))⟩

@[simp]
theorem part_annotated_iff {part inner : TypeExpr} {attachments : List Attachment} :
    part.Part (annotated inner attachments) ↔
      part = annotated inner attachments ∨ part.Part inner :=
  ⟨fun h => by cases h <;> simp_all, fun h => h.elim (· ▸ .self _) (.annotated · _)⟩

theorem part_union_iff {part : TypeExpr} (hpart : part.isUnion = false) {members : List TypeExpr} :
    part.Part (union members) ↔ ∃ member ∈ members, part.Part member := by
  constructor
  · intro h
    cases h with
    | self => cases hpart
    | member h hmem => exact ⟨_, hmem, h⟩
  · rintro ⟨member, hmem, h⟩
    exact .member h hmem

/-- Whatever else than a union stands in a union stands in one of its flattened members. -/
theorem part_union_iff_flatten {part : TypeExpr} (hpart : part.isUnion = false)
    {members : List TypeExpr} :
    part.Part (union members) ↔ ∃ member ∈ flatten members, part.Part member := by
  rw [part_union_iff hpart]
  fun_induction flatten members with
  | case1 => rfl
  | case2 nested rest ihNested ihRest =>
      rw [List.exists_mem_cons_iff, part_union_iff hpart, ihNested, ihRest]
      simp only [List.mem_append, or_and_right, exists_or]
  | case3 head rest hnot ih => rw [List.exists_mem_cons_iff, List.exists_mem_cons_iff, ih]

/-- The flattened members of a union stand in it. -/
theorem part_union_of_mem_flatten {members : List TypeExpr} {member : TypeExpr}
    (hmem : member ∈ flatten members) : member.Part (.union members) :=
  (part_union_iff_flatten (isUnion_of_mem_flatten hmem)).mpr ⟨member, hmem, .self member⟩

/-- The mentions of a union of several members are those of its members. -/
theorem OfUnion.mem_modelMentions {nullable : Bool} {parts : List Descriptor} {desc : Descriptor}
    (h : OfUnion nullable parts desc) {path : ModelPath} :
    path ∈ desc.modelMentions ↔ ∃ part ∈ parts, path ∈ part.modelMentions := by
  cases h with
  | absence => simp [Descriptor.modelMentions]
  | only => simp
  | optional => simp [Descriptor.modelMentions]
  | models _ hmodels =>
      rw [Descriptor.modelMentions, modelVariants, List.mem_filterMap]
      refine exists_congr fun part => and_congr_right fun hpart => ?_
      obtain ⟨other, hpeel⟩ := Descriptor.isModel_iff.mp (hmodels part hpart)
      rw [← Descriptor.modelMentions_peel]
      simp [hpeel, Descriptor.modelMentions, eq_comm]
  | scalars _ hscalars =>
      simp only [Descriptor.modelMentions, List.not_mem_nil, false_iff, not_exists, not_and]
      intro part hpart
      rw [((Descriptor.Part.self part).mentions_eq_nil (hscalars part hpart)).1]
      exact List.not_mem_nil

/-- Every member of a union but the absence has its descriptor among the parts. -/
theorem exists_part_of_mem_flatten {members : List TypeExpr} {parts : List Descriptor}
    (hparts : List.Forall₂ (fun member part => classify member = .ok part)
      (presentMembers members) parts)
    {member : TypeExpr} (hmem : member ∈ flatten members) (hne : member ≠ absence) :
    ∃ part ∈ parts, member.classify = .ok part :=
  exists_right_of_forall₂ hparts member (mem_presentMembers_iff.mpr ⟨hmem, hne⟩)

/-- An expression mentions the models that its descriptor mentions. -/
theorem part_model_iff_of_classify {expr : TypeExpr} {path : ModelPath} {desc : Descriptor}
    (h : expr.classify = .ok desc) : (model path).Part expr ↔ path ∈ desc.modelMentions := by
  induction expr using flatInduction generalizing desc with
  | primitive kind =>
      cases h
      simp [Descriptor.modelMentions]
  | literal value =>
      cases h
      simp [Descriptor.modelMentions]
  | list element ih =>
      obtain ⟨part, hpart, rfl⟩ := map_eq_ok_iff.mp h
      simp [Descriptor.modelMentions, ih hpart]
  | dict key value ihKey ihValue =>
      obtain ⟨keyDesc, valueDesc, hkey, _, hvalue, rfl⟩ := classify_dict_eq_ok_iff.mp h
      simp [Descriptor.modelMentions, ihKey hkey, ihValue hvalue]
  | union members ih =>
      obtain ⟨parts, hparts, hof⟩ := classify_union_eq_ok_iff.mp h
      rw [part_union_iff_flatten rfl, hof.mem_modelMentions]
      constructor
      · rintro ⟨member, hmem, hin⟩
        have hne : member ≠ absence := by
          rintro rfl
          simp [absence] at hin
        obtain ⟨part, hpart, hclass⟩ := exists_part_of_mem_flatten hparts hmem hne
        exact ⟨part, hpart, (ih member hmem hclass).mp hin⟩
      · rintro ⟨part, hpart, hin⟩
        obtain ⟨member, hmember, hclass⟩ := exists_left_of_forall₂ hparts part hpart
        have hmem := (mem_presentMembers_iff.mp hmember).1
        exact ⟨member, hmem, (ih member hmem hclass).mpr hin⟩
  | annotated inner attachments ih =>
      obtain ⟨part, hpart, rfl⟩ := map_eq_ok_iff.mp h
      simp [Descriptor.modelMentions, ih hpart]
  | model other =>
      cases h
      simp [Descriptor.modelMentions]

end TypeExpr

namespace Descriptor

/-- What an optional type adds the absence to is neither the absence nor a type with it. -/
theorem ne_of_ownsAbsence_eq_false {desc : Descriptor} (h : desc.ownsAbsence = false) :
    desc ≠ primitive .absence ∧ (∀ inner, desc ≠ optional inner) ∧
      (∀ variants nullable, desc ≠ unionOfModels variants nullable) ∧
      ∀ variants nullable, desc ≠ unionOfScalars variants nullable := by
  refine ⟨?_, ?_, ?_, ?_⟩
  all_goals
    intros
    rintro rfl
    cases h

end Descriptor

namespace TypeExpr

/-- Every part of a descriptor is in order, at every depth: the keys of mappings are texts or
addresses, unions have several variants, those of scalars are safe scalars or literals, and what an
optional type holds is not itself absent, optional or a union. And it mentions exactly the models
that the expression mentions. -/
theorem wellFormed_parts_of_classify {expr : TypeExpr} {desc : Descriptor}
    (h : expr.classify = .ok desc) :
    (∀ key value, (Descriptor.mapping key value).Part desc →
      key.peel = .primitive .str ∨ key.peel = .primitive .url) ∧
    (∀ variants nullable, (Descriptor.unionOfScalars variants nullable).Part desc →
      2 ≤ variants.length ∧ ∀ variant ∈ variants,
        (∃ kind, variant.peel = .primitive kind ∧ kind.isSafe = true) ∨
          ∃ value, variant.peel = .literal value) ∧
    (∀ variants nullable, (Descriptor.unionOfModels variants nullable).Part desc →
      2 ≤ variants.length) ∧
    (∀ inner, (Descriptor.optional inner).Part desc →
      inner ≠ .primitive .absence ∧ (∀ content, inner ≠ .optional content) ∧
        (∀ variants nullable, inner ≠ .unionOfModels variants nullable) ∧
        ∀ variants nullable, inner ≠ .unionOfScalars variants nullable) ∧
    ∀ path, path ∈ desc.models ↔ (model path).Part expr := by
  have hwell := wellFormed_of_classify h
  refine ⟨?_, ?_, ?_, ?_, ?_⟩
  · intro key value hpart
    exact Descriptor.peel_of_isMappingKey (hpart.wellFormed hwell).1
  · intro variants nullable hpart
    obtain ⟨hlength, hscalars⟩ := hpart.wellFormed hwell
    exact ⟨hlength, fun variant hvariant => Descriptor.peel_of_scalar (hscalars variant hvariant)⟩
  · intro variants nullable hpart
    exact hpart.wellFormed hwell
  · intro inner hpart
    exact Descriptor.ne_of_ownsAbsence_eq_false (hpart.wellFormed hwell).1
  · intro path
    rw [Descriptor.mem_models, part_model_iff_of_classify h]

/-- Events under keys with a note; one may be absent, and the models stand in a nested union. -/
def eventsByName : TypeExpr :=
  .dict (.annotated (.primitive .str) [.note "name"])
    (.union [absence, .union [.model ⟨"app.Created"⟩, .model ⟨"app.Deleted"⟩]])

def eventsByNameDescriptor : Descriptor :=
  .mapping (.annotated (.primitive .str) [.note "name"])
    (.unionOfModels [⟨"app.Created"⟩, ⟨"app.Deleted"⟩] true)

theorem classify_eventsByName : eventsByName.classify = .ok eventsByNameDescriptor := by
  have hevents : (TypeExpr.union [absence,
      .union [.model ⟨"app.Created"⟩, .model ⟨"app.Deleted"⟩]]).classify =
        .ok (.unionOfModels [⟨"app.Created"⟩, ⟨"app.Deleted"⟩] true) := by
    have hpresent : presentMembers [absence,
        .union [.model ⟨"app.Created"⟩, .model ⟨"app.Deleted"⟩]] =
          [.model ⟨"app.Created"⟩, .model ⟨"app.Deleted"⟩] := by
      simp [presentMembers, flatten, List.eraseDups_cons, absence]
    rw [classify_union_eq, hpresent, decide_eq_true (mem_flatten_of_mem rfl List.mem_cons_self)]
    rfl
  exact classify_dict_eq_ok_iff.mpr ⟨_, _, rfl, rfl, hevents, rfl⟩

/-- The key of the events is a text under its note, and the union keeps both of its models. -/
theorem wellFormed_parts_of_classify_events :
    (∃ key value, eventsByNameDescriptor = .mapping key value ∧
      (key.peel = .primitive .str ∨ key.peel = .primitive .url)) ∧
    (∀ path, path ∈ eventsByNameDescriptor.models ↔ (model path).Part eventsByName) := by
  obtain ⟨hkey, _, _, _, hmodels⟩ := wellFormed_parts_of_classify classify_eventsByName
  exact ⟨⟨_, _, rfl, hkey _ _ (.self _)⟩, hmodels⟩

end TypeExpr

end SchemaWire
