import SchemaWire.Proofs.Descriptor.UnionLaws
import SchemaWire.Proofs.Route.Parts
import SchemaWire.Proofs.Semantics.TypeValues

/-!
The fields of forms. A form merges the fields that its route matches with those that it sends: the
merge keeps one field of each name, in the order of the first mentions, and needs all fields of a
name to be widened to one type. The main statement says when a route has a form, when it cannot have
one, and what the fields of a form are and accept.
-/
namespace SchemaWire

open TypeScript (Ty Value TypeNames)

/-- The descriptor admits the absence at its outermost layer, under any attachments. -/
def Descriptor.AdmitsAbsence (desc : Descriptor) : Prop :=
  (∃ inner, desc.peel = .optional inner) ∨ (∃ variants, desc.peel = .unionOfModels variants true) ∨
    ∃ variants, desc.peel = .unionOfScalars variants true

theorem Descriptor.admitsAbsence_iff {desc : Descriptor} :
    desc.AdmitsAbsence ↔ (desc.isOptional || desc.isNullableUnion) = true := by
  rw [AdmitsAbsence, isOptional, isNullableUnion]
  cases desc.peel <;> simp

namespace ObjectField

variable {names : TypeNames} {value : Value}

/-- A field that admits the absence keeps its type in a form. -/
theorem widened_of_admitsAbsence {field : ObjectField} (h : field.descriptor.AdmitsAbsence) :
    field.widened = field.ty :=
  if_pos (Descriptor.admitsAbsence_iff.mp h)

/-- The type of any other field takes `null` and `undefined`, too. -/
theorem contains_widened_iff {field : ObjectField} (h : ¬ field.descriptor.AdmitsAbsence) :
    field.widened.Contains names value ↔
      field.ty.Contains names value ∨ value = .null ∨ value = .scalar .undefined := by
  rw [widened, if_neg fun habsent => h (Descriptor.admitsAbsence_iff.mpr habsent), ← or_assoc,
    ← Ty.contains_nullable_iff]
  split
  · rename_i members hnullable
    simp [Ty.Contains, TypeScript.Ty.anyContains_iff, TypeScript.PrimitiveTy.Contains, hnullable,
      or_and_right, exists_or]
  · simp [Ty.Contains, TypeScript.Ty.AnyContains, TypeScript.PrimitiveTy.Contains]

end ObjectField

namespace RouteDef

/-! Merging. -/

/-- One field is kept of each name, and it has the type of all fields of its name. -/
structure IsMerge (sources merged : List ObjectField) : Prop where
  names : merged.map ObjectField.name = (sources.map ObjectField.name).eraseDups
  kept : ∀ field ∈ merged, field ∈ sources
  types : ∀ source ∈ sources, ∃ field ∈ merged, field.name = source.name ∧ field.ty = source.ty

namespace IsMerge

variable {sources merged : List ObjectField} {field : ObjectField}

theorem nil : IsMerge [] [] :=
  ⟨rfl, nofun, nofun⟩

theorem eq_of_name_eq (h : IsMerge sources merged) {a b : ObjectField} (ha : a ∈ merged)
    (hb : b ∈ merged) (hname : a.name = b.name) : a = b := by
  have hdistinct : (merged.map ObjectField.name).Nodup := h.names ▸ nodup_eraseDups _
  exact List.inj_on_of_nodup_map hdistinct ha hb hname

/-- The kept field of a name has the type of each field of this name. -/
theorem ty_eq (h : IsMerge sources merged) (hfield : field ∈ merged) {source : ObjectField}
    (hsource : source ∈ sources) (hname : field.name = source.name) : field.ty = source.ty := by
  obtain ⟨other, hother, hsame, hty⟩ := h.types source hsource
  rw [h.eq_of_name_eq hfield hother (hname.trans hsame.symm), hty]

/-- A field of a new name is added. -/
theorem add (h : IsMerge sources merged) (hnew : ∀ earlier ∈ merged, earlier.name ≠ field.name) :
    IsMerge (sources ++ [field]) (merged ++ [field]) := by
  have hfresh : field.name ∉ sources.map ObjectField.name := by
    rw [← List.mem_eraseDups, ← h.names]
    rintro hin
    obtain ⟨earlier, hearlier, hname⟩ := List.mem_map.mp hin
    exact hnew earlier hearlier hname
  refine ⟨?_, ?_, ?_⟩
  · rw [List.map_append, List.map_append, List.map_singleton, List.eraseDups_append, h.names,
      List.removeAll, List.filter_cons_of_pos (by simpa using hfresh), List.filter_nil,
      List.eraseDups_cons, List.filter_nil, List.eraseDups_nil]
  · exact List.forall_mem_append.mpr ⟨fun kept hkept => List.mem_append_left _ (h.kept kept hkept),
      fun kept hkept => List.mem_append_right _ hkept⟩
  · rw [List.forall_mem_append, List.forall_mem_singleton]
    refine ⟨fun source hsource => ?_, field, List.mem_append_right _ List.mem_cons_self, rfl, rfl⟩
    obtain ⟨kept, hkept, hsame⟩ := h.types source hsource
    exact ⟨kept, List.mem_append_left _ hkept, hsame⟩

/-- A field of a name and type that are there already changes nothing. -/
theorem skip (h : IsMerge sources merged) {earlier : ObjectField} (hmem : earlier ∈ merged)
    (hname : earlier.name = field.name) (hty : earlier.ty = field.ty) :
    IsMerge (sources ++ [field]) merged := by
  have hthere : field.name ∈ sources.map ObjectField.name :=
    List.mem_map.mpr ⟨earlier, h.kept earlier hmem, hname⟩
  refine ⟨?_, fun kept hkept => List.mem_append_left _ (h.kept kept hkept), ?_⟩
  · rw [List.map_append, List.map_singleton, eraseDups_insert_of_mem hthere, List.append_nil,
      h.names]
  · rw [List.forall_mem_append, List.forall_mem_singleton]
    exact ⟨h.types, earlier, hmem, hname, hty⟩

end IsMerge

/-- Two of the fields have one name and different types. -/
def Clash (fields : List ObjectField) : Prop :=
  ∃ a ∈ fields, ∃ b ∈ fields, a.name = b.name ∧ a.ty ≠ b.ty

theorem IsMerge.not_clash {sources merged : List ObjectField} (h : IsMerge sources merged) :
    ¬ Clash sources := by
  rintro ⟨a, ha, b, hb, hname, hty⟩
  obtain ⟨kept, hkept, hsame, htyped⟩ := h.types a ha
  exact hty (htyped.symm.trans (h.ty_eq hkept hb (hsame.trans hname)))

/-- Merging goes on as long as no field has another type than the one kept of its name. -/
theorem mergeFields_cases {sources merged : List ObjectField} (hmerge : IsMerge sources merged)
    (fields : List ObjectField) :
    (∃ result, mergeFields merged fields = .ok result ∧ IsMerge (sources ++ fields) result) ∨
      (∃ fault, mergeFields merged fields = .error fault) ∧ Clash (sources ++ fields) := by
  induction fields generalizing sources merged with
  | nil => exact Or.inl ⟨merged, rfl, by rwa [List.append_nil]⟩
  | cons field rest ih =>
      rw [← List.singleton_append, ← List.append_assoc, List.singleton_append, mergeFields]
      split
      · rename_i hnone
        exact ih (hmerge.add (by simpa using hnone))
      · rename_i earlier hsome
        have hmem := List.mem_of_find?_eq_some hsome
        have hname : earlier.name = field.name := by simpa using List.find?_some hsome
        split
        · rename_i hty
          exact ih (hmerge.skip hmem hname hty)
        · rename_i hty
          refine Or.inr ⟨⟨_, rfl⟩, earlier, ?_, field, by simp, hname, hty⟩
          exact List.mem_append_left _ (List.mem_append_left _ (hmerge.kept earlier hmem))

/-! Forms. -/

variable {index : TypeIndex} {route : RouteDef}

/-- The fields of the declared models that a route matches, then of those that it sends. -/
def sentFields (index : TypeIndex) (route : RouteDef) : List ObjectField :=
  (route.matchInfo.toList ++ route.body.toList).flatMap fun path => fieldsOf (index.object? path)

theorem fieldsOf_bind (path : Option ModelPath) :
    fieldsOf (path.bind index.object?) =
      path.toList.flatMap fun source => fieldsOf (index.object? source) := by
  cases path <;> simp [fieldsOf]

/-- The form of a route whose models are declared. -/
theorem form_of_declared (h : ∀ path ∈ route.matchInfo.toList ++ route.body.toList,
      (index.object? path).isSome = true) :
    route.form index =
      if route.hasForm then
        (fun fields => some ⟨route.formName, none, fields, false⟩) <$>
          route.lift (mergeFields [] ((route.sentFields index).map ObjectField.inForm))
      else .ok none := by
  rw [List.forall_mem_append] at h
  rw [form, object?_eq_ok_iff.mpr ⟨h.1, rfl⟩, object?_eq_ok_iff.mpr ⟨h.2, rfl⟩, sentFields,
    List.flatMap_append, ← fieldsOf_bind, ← fieldsOf_bind]
  split
  · exact (map_eq_pure_bind (m := Gen) _ _).symm
  · rfl

end RouteDef

/-- The object type is the form of some fields: it has their names once each, is not exported, has
no defaults, and keeps the types that admit the absence while the others take `null` and
`undefined`. -/
structure ObjectType.IsFormOf (form : ObjectType) (sources : List ObjectField) : Prop where
  internal : form.isExported = false
  noDefaults : ∀ field ∈ form.fields, field.default = none
  names : form.fields.map ObjectField.name = (sources.map ObjectField.name).eraseDups
  declared : ∀ field ∈ form.fields, ∀ source ∈ sources, field.name = source.name →
    source.descriptor.AdmitsAbsence → field.ty = source.ty
  widened : ∀ field ∈ form.fields, ∀ source ∈ sources, field.name = source.name →
    ¬ source.descriptor.AdmitsAbsence → ∀ names value,
      field.ty.Contains names value ↔
        source.ty.Contains names value ∨ value = .null ∨ value = .scalar .undefined

namespace RouteDef

variable {index : TypeIndex} {route : RouteDef}

theorem IsMerge.isFormOf {sources merged : List ObjectField} (name : String)
    (h : IsMerge (sources.map ObjectField.inForm) merged) :
    ObjectType.IsFormOf ⟨name, none, merged, false⟩ sources := by
  have hty : ∀ field ∈ merged, ∀ source ∈ sources, field.name = source.name →
      field.ty = source.widened :=
    fun field hfield source hsource hname => h.ty_eq hfield (List.mem_map_of_mem hsource) hname
  refine ⟨rfl, ?_, ?_, ?_, ?_⟩
  · intro field hfield
    obtain ⟨source, _, rfl⟩ := List.mem_map.mp (h.kept field hfield)
    rfl
  · have hnames := h.names
    rwa [List.map_map] at hnames
  · intro field hfield source hsource hname hadmits
    rw [hty field hfield source hsource hname, ObjectField.widened_of_admitsAbsence hadmits]
  · intro field hfield source hsource hname hadmits names value
    rw [hty field hfield source hsource hname, ObjectField.contains_widened_iff hadmits]

/-- Let the models that a route matches and sends be declared. The route has no form if and only if
it matches and sends nothing. Its form fails if and only if two of the fields have one name and are
widened to types that differ as syntax. Any other form is made of all fields. -/
theorem form_merges_fields (h : ∀ path ∈ route.matchInfo.toList ++ route.body.toList,
      (index.object? path).isSome = true) :
    (route.form index = .ok none ↔ route.matchInfo = none ∧ route.body = none) ∧
      ((∃ error, route.form index = .error error) ↔
        ∃ a ∈ route.sentFields index, ∃ b ∈ route.sentFields index,
          a.name = b.name ∧ a.widened ≠ b.widened) ∧
      ∀ form, route.form index = .ok (some form) → form.IsFormOf (route.sentFields index) := by
  rw [form_of_declared h]
  have hclash : (∃ a ∈ route.sentFields index, ∃ b ∈ route.sentFields index,
      a.name = b.name ∧ a.widened ≠ b.widened) ↔
        Clash ((route.sentFields index).map ObjectField.inForm) := by
    simp [Clash, ObjectField.inForm]
  rw [hclash]
  have hform : route.hasForm = false ↔ route.matchInfo = none ∧ route.body = none := by
    simp [hasForm]
  rw [← hform]
  cases hhas : route.hasForm with
  | false =>
      have hempty : route.sentFields index = [] := by
        obtain ⟨hmatchInfo, hbody⟩ := hform.mp hhas
        simp [sentFields, hmatchInfo, hbody]
      simp [hempty, Clash]
  | true =>
      rcases mergeFields_cases .nil ((route.sentFields index).map ObjectField.inForm) with
        ⟨merged, hmerged, hmerge⟩ | ⟨⟨fault, hfault⟩, hclashes⟩
      · rw [List.nil_append] at hmerge
        have hmerges := hmerge.isFormOf route.formName
        simp [hmerged, lift, hmerge.not_clash, hmerges]
      · rw [List.nil_append] at hclashes
        simp [hfault, lift, invalid, hclashes]

end RouteDef

def noteIndex : TypeIndex :=
  { TypeIndex.empty with objects := [
      (⟨"app.Key"⟩, ⟨"Key", some ⟨"app.Key"⟩, [
        ⟨"id", .primitive .int, .primitive .number, none⟩,
        ⟨"tag", .optional (.primitive .str), .union [.primitive .string, .primitive .null],
          none⟩], true⟩),
      (⟨"app.Note"⟩, ⟨"Note", some ⟨"app.Note"⟩, [
        ⟨"text", .primitive .str, .primitive .string, some (.str "")⟩,
        ⟨"id", .primitive .int, .primitive .number, none⟩], true⟩)] }

/-- A route that matches the key and sends the note. -/
def noteRoute : RouteDef :=
  ⟨"save_note", none, .put, "/notes/\x7bid\x7d", some ⟨"app.Key"⟩, some ⟨"app.Note"⟩, none⟩

theorem RouteDef.form_merges_fields_note :
    (∀ path ∈ noteRoute.matchInfo.toList ++ noteRoute.body.toList,
        (noteIndex.object? path).isSome = true) ∧
      ∃ form, noteRoute.form noteIndex = .ok (some form) ∧
        form.fields.map ObjectField.name = ["id", "tag", "text"] ∧
        ∀ field ∈ form.fields, field.name = "id" → ∀ names,
          field.ty.Contains names .null ∧ ¬ field.ty.Contains names (.scalar (.string "")) := by
  have hdeclared : ∀ path ∈ noteRoute.matchInfo.toList ++ noteRoute.body.toList,
      (noteIndex.object? path).isSome = true := by decide +kernel
  obtain ⟨_, _, hmerges⟩ := form_merges_fields hdeclared
  obtain ⟨form, hform⟩ : ∃ form, noteRoute.form noteIndex = .ok (some form) := ⟨_, rfl⟩
  have hfields := hmerges form hform
  refine ⟨hdeclared, form, hform, ?_, ?_⟩
  · rw [hfields.names]
    decide +kernel
  · intro field hfield hname names
    have hid := hfields.widened field hfield ⟨"id", .primitive .int, .primitive .number, none⟩
      List.mem_cons_self hname (by simp [Descriptor.AdmitsAbsence, Descriptor.peel]) names
    rw [hid, hid]
    simp [Ty.Contains, TypeScript.PrimitiveTy.Contains, Value.null]

end SchemaWire
