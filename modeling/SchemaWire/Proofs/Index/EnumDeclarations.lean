import SchemaWire.Proofs.Descriptor.Tags
import SchemaWire.Proofs.Index.Enums
import SchemaWire.Proofs.Index.Registration

/-!
The enums of an index. Tags of one name come from fields, models and depths that registration meets
in some order, and their values are merged while it goes on; what is declared in the end are the
enums of the tags in the declared fields, with the values of these tags.
-/
namespace SchemaWire

namespace TypeIndex

/-- A declared field has the tag somewhere inside its descriptor. -/
def HasTag (index : TypeIndex) (tag : EnumTag) : Prop :=
  ∃ path object, index.object? path = some object ∧
    ∃ field ∈ object.fields, ∃ inner, field.descriptor.Tagged tag inner

namespace Consistent

variable {index : TypeIndex}

theorem hasTag_iff (h : index.Consistent) {tag : EnumTag} :
    index.HasTag tag ↔ ∃ entry ∈ index.objects, ∃ inner, (tag, inner) ∈ entry.2.enumTags := by
  simp only [HasTag, h.object?_eq_some_iff, ObjectType.enumTags, List.mem_flatMap,
    Descriptor.mem_enumTags_iff, Prod.exists]
  constructor
  · rintro ⟨path, object, hobject, field, hfield, inner, htag⟩
    exact ⟨path, object, hobject, inner, field, hfield, htag⟩
  · rintro ⟨path, object, hobject, inner, field, hfield, htag⟩
    exact ⟨path, object, hobject, field, hfield, inner, htag⟩

/-- The tags that were added to the enums are those of the declared fields. -/
theorem exists_tag_iff (h : index.Consistent) (holds : EnumTag → Prop) :
    (∃ tag ∈ index.objects.flatMap fun entry => entry.2.enumTags, holds tag.1) ↔
      ∃ tag, index.HasTag tag ∧ holds tag := by
  simp only [h.hasTag_iff, List.mem_flatMap]
  constructor
  · rintro ⟨⟨tag, inner⟩, ⟨entry, hentry, htag⟩, hholds⟩
    exact ⟨tag, ⟨entry, hentry, inner, htag⟩, hholds⟩
  · rintro ⟨tag, ⟨entry, hentry, inner, htag⟩, hholds⟩
    exact ⟨(tag, inner), ⟨entry, hentry, htag⟩, hholds⟩

theorem mem_enum_names_iff (h : index.Consistent) {name : String} :
    name ∈ index.enums.names ↔ ∃ tag, index.HasTag tag ∧ tag.name = name := by
  rw [h.enums_eq, EnumRegistry.mem_names_foldl, h.exists_tag_iff fun tag => tag.name = name]
  simp [EnumRegistry.empty, EnumRegistry.names, SortedMap.keys, SortedMap.empty]

theorem enums_lists_iff (h : index.Consistent) {name value : String} :
    index.enums.Lists name value ↔
      ∃ tag, index.HasTag tag ∧ tag.name = name ∧ value ∈ tag.values := by
  rw [h.enums_eq, EnumRegistry.lists_foldl,
    h.exists_tag_iff fun tag => tag.name = name ∧ value ∈ tag.values]
  simp [EnumRegistry.empty, EnumRegistry.Lists]

/-- Every tag passed its check, so that it has values. -/
theorem values_ne_nil (h : index.Consistent) {tag : EnumTag} (htag : index.HasTag tag) :
    tag.values ≠ [] := by
  obtain ⟨entry, hentry, inner, hmem⟩ := h.hasTag_iff.mp htag
  exact (EnumTag.check_eq_ok_iff.mp (h.checked entry hentry _ hmem)).2.1

end Consistent

/-- The enums of a registration are those that tags in declared fields name. Each has the values of
all tags of its name, at least one, in ascending order. They are declared in ascending order of
their names. -/
theorem register_collects_enums {graph : ModelGraph} {roots : List ModelPath} {index : TypeIndex}
    (h : register graph roots = .ok index) :
    (∀ name, (∃ values, index.enums.values? name = some values) ↔
      ∃ tag, index.HasTag tag ∧ tag.name = name) ∧
    (∀ name values, index.enums.values? name = some values →
      (∀ value, value ∈ values ↔ ∃ tag, index.HasTag tag ∧ tag.name = name ∧ value ∈ tag.values) ∧
        values.Pairwise (· < ·) ∧ values ≠ []) ∧
    (index.enums.typeDecls.map TypeScript.TypeDecl.name = index.enums.names ∧
      index.enums.names.Pairwise (· < ·)) ∧
    ∀ decl, decl ∈ index.enums.typeDecls ↔ ∃ name values,
      index.enums.values? name = some values ∧ decl = ⟨name, .enumeration values, true⟩ := by
  have hindex := (register_ok h).1.toConsistent
  have hnames : ∀ name, (∃ values, index.enums.values? name = some values) ↔
      ∃ tag, index.HasTag tag ∧ tag.name = name := fun name => by
    rw [← EnumRegistry.mem_names_iff, hindex.mem_enum_names_iff]
  refine ⟨hnames, ?_, ⟨index.enums.map_name_typeDecls, index.enums.enums.ascending_keys⟩,
    fun decl => EnumRegistry.mem_typeDecls_iff⟩
  intro name values hvalues
  have hmem : ∀ value, value ∈ values ↔
      ∃ tag, index.HasTag tag ∧ tag.name = name ∧ value ∈ tag.values := fun value => by
    rw [EnumRegistry.mem_values_iff_lists hvalues, hindex.enums_lists_iff]
  refine ⟨hmem, EnumRegistry.ascending_values hvalues, ?_⟩
  -- the enum comes from a tag, and no tag is without values
  obtain ⟨tag, htag, hname⟩ := (hnames name).mp ⟨values, hvalues⟩
  obtain ⟨value, hvalue⟩ := List.exists_mem_of_ne_nil _ (hindex.values_ne_nil htag)
  exact List.ne_nil_of_mem ((hmem value).mpr ⟨tag, htag, hname, hvalue⟩)

/-- A user with a role in a team, whose badges are named by roles and are grades or numbers. -/
def badgesGraph : ModelGraph :=
  .ofList [
    (⟨"app.User"⟩, ⟨[⟨"role", .enumTagged "Role" "writer", none⟩,
      ⟨"team", .model ⟨"app.Team"⟩, none⟩]⟩),
    (⟨"app.Team"⟩, ⟨[⟨"badges", .dict (.enumTagged "Role" "admin")
      (.union [.enumTagged "Grade" "gold", .primitive .int]), none⟩]⟩)]

/-- The roles of both models make one enum. -/
theorem register_collects_enums_badges :
    ∃ index, register badgesGraph [⟨"app.User"⟩] = .ok index ∧
      (∃ tag, index.HasTag tag ∧ tag.name = "Role" ∧ "admin" ∈ tag.values) ∧
      ∃ tag, index.HasTag tag ∧ tag.name = "Role" ∧ "writer" ∈ tag.values := by
  have hroles : (register badgesGraph [⟨"app.User"⟩]).toOption.map
      (fun index => index.enums.values? "Role") = some (some ["admin", "writer"]) := by
    simp only [register, addRoots, addRoot, visit_eq_visitWithin]
    decide
  obtain ⟨index, hindex, hvalues⟩ := Option.map_eq_some_iff.mp hroles
  have hok := toOption_eq_some_iff.mp hindex
  obtain ⟨_, hmerged, _⟩ := register_collects_enums hok
  obtain ⟨hmem, _⟩ := hmerged "Role" ["admin", "writer"] hvalues
  exact ⟨index, hok, (hmem "admin").mp (by simp), (hmem "writer").mp (by simp)⟩

end TypeIndex

end SchemaWire
