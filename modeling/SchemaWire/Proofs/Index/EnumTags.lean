import SchemaWire.Proofs.Index.Diagnostics
import SchemaWire.Proofs.Index.EnumDeclarations

/-!
What becomes of the enum tags in the fields of models. Registration checks the tags of descriptors,
not the written ones: a tag that classification keeps is checked and its values are collected, and
one inside a union of models is neither refused nor collected.
-/
namespace SchemaWire

open TypeScript (isIdentifier)

/-- The tag is in order, on a string, and all its values are among those of its enum. -/
structure EnumTag.Kept (tag : EnumTag) (inner : TypeExpr) (enums : EnumRegistry) : Prop where
  string : ∃ desc, inner.classify = .ok desc ∧
    (desc.peel = .primitive .str ∨ ∃ text, desc.peel = .literal (.str text))
  identifier : isIdentifier tag.name = true
  values_ne_nil : tag.values ≠ []
  values : ∀ value ∈ tag.values, isEnumValue value = true
  listed : ∀ value ∈ tag.values, enums.Lists tag.name value

/-- A tag that is kept is on a type that takes tags. -/
theorem EnumTag.Kept.takesEnumTags {tag : EnumTag} {inner : TypeExpr} {enums : EnumRegistry}
    (h : tag.Kept inner enums) {desc : Descriptor} (hinner : inner.classify = .ok desc) :
    desc.takesEnumTags = true := by
  obtain ⟨other, hother, hpeel⟩ := h.string
  obtain rfl := Except.ok.inj (hother.symm.trans hinner)
  exact Descriptor.takesEnumTags_iff.mpr hpeel

namespace TypeIndex

variable {graph : ModelGraph} {roots : List ModelPath} {index : TypeIndex}

/-- What passes its check in a declared field is kept. -/
theorem Consistent.kept (h : index.Consistent) {path : ModelPath} {object : ObjectType}
    (hobject : index.object? path = some object) {field : ObjectField}
    (hfield : field ∈ object.fields) {tag : EnumTag} {inner : TypeExpr} {innerDesc : Descriptor}
    (hinner : inner.classify = .ok innerDesc) (htag : field.descriptor.Tagged tag innerDesc) :
    tag.Kept inner index.enums := by
  have hmem : (tag, innerDesc) ∈ object.enumTags :=
    List.mem_flatMap.mpr ⟨field, hfield, (Descriptor.mem_enumTags_iff _).mpr htag⟩
  obtain ⟨hname, hne, hvalues, hstring⟩ := EnumTag.check_eq_ok_iff.mp
    (h.checked _ (mem_objects_of_object? hobject) _ hmem)
  refine ⟨⟨innerDesc, hinner, Descriptor.takesEnumTags_iff.mp hstring⟩, hname, hne, hvalues, ?_⟩
  intro value hvalue
  have hhas : index.HasTag tag := ⟨path, object, hobject, field, hfield, innerDesc, htag⟩
  exact h.enums_lists_iff.mpr ⟨tag, hhas, rfl, hvalue⟩

/-- A tag of a declared model is kept exactly if it is not lost. -/
theorem kept_iff (hindex : index.Consistent) (hcovers : Covers graph roots index)
    {path : ModelPath} {model : ModelDef} {field : FieldDef} (hpath : path ∈ index.paths)
    (hmodel : graph.get? path = some model) (hfield : field ∈ model.fields) {tag : EnumTag}
    {inner : TypeExpr} (htag : field.ty.Tagged tag inner) :
    tag.Kept inner index.enums ↔ ¬ field.ty.LosesTag tag inner := by
  constructor
  · intro hkept hloses
    obtain ⟨innerDesc, hinner, hmodelDesc⟩ := hloses.isModel
    have hrefused := Descriptor.takesEnumTags_eq_false_of_isModel hmodelDesc
    cases hrefused.symm.trans (hkept.takesEnumTags hinner)
  · intro hnot
    obtain ⟨object, hobject⟩ := exists_object_iff.mpr hpath
    obtain ⟨source, hsource, hdeclares⟩ := (hcovers.object_declares hobject).model
    obtain rfl := Option.some.inj (hmodel.symm.trans hsource)
    obtain ⟨declared, hdeclared, hfieldDeclares⟩ :=
      exists_right_of_forall₂ hdeclares.fields field hfield
    obtain ⟨innerDesc, hinner, htagged⟩ :=
      (htag.classify_or_losesTag hfieldDeclares.classified).resolve_right hnot
    exact hindex.kept hobject hdeclared hinner htagged

/-- A tag that breaks a rule is a defect if its field has a descriptor that keeps it. -/
theorem defect_of_breaks {path : ModelPath} (hpath : Reachable graph.references roots path)
    {model : ModelDef} (hmodel : graph.get? path = some model) {field : FieldDef}
    (hfield : field ∈ model.fields) {desc : Descriptor} (hclass : field.ty.classify = .ok desc)
    {tag : EnumTag} {innerDesc : Descriptor} (htag : desc.Tagged tag innerDesc)
    {reason : EnumTagFault} (hbreaks : tag.Breaks innerDesc reason) :
    graph.Defect roots (.invalidEnumTag tag.name reason) :=
  .invalidEnumTag hpath ⟨desc, ModelGraph.mem_descriptors hmodel hfield hclass, htag⟩ hbreaks

/-- Of the tags in the fields of declared models registration keeps those that stand outside unions
of models, and loses the others. A tag outside unions of models that breaks a rule is a defect: the
registration fails, and its error is that of the tag unless there are other defects. -/
theorem register_keeps_tag_iff (graph : ModelGraph) (roots : List ModelPath) :
    (∀ index, register graph roots = .ok index →
      ∀ path ∈ index.paths, ∀ model, graph.get? path = some model → ∀ field ∈ model.fields,
        ∀ tag inner, field.ty.Tagged tag inner →
          (tag.Kept inner index.enums ↔ ¬ field.ty.LosesTag tag inner)) ∧
    ∀ path, Reachable graph.references roots path →
      ∀ model, graph.get? path = some model → ∀ field ∈ model.fields,
        ∀ desc, field.ty.classify = .ok desc →
          ∀ tag inner, field.ty.Tagged tag inner → ¬ field.ty.LosesTag tag inner →
            ∀ innerDesc reason, inner.classify = .ok innerDesc → tag.Breaks innerDesc reason →
              graph.Defect roots (.invalidEnumTag tag.name reason) ∧
                ∃ fault, register graph roots = .error fault ∧ graph.Defect roots fault := by
  constructor
  · intro index hregister path hpath model hmodel field hfield tag inner htag
    obtain ⟨hsound, hcovers⟩ := register_ok hregister
    exact kept_iff hsound.toConsistent hcovers hpath hmodel hfield htag
  · intro path hpath model hmodel field hfield desc hclass tag inner htag hnot innerDesc reason
      hinner hbreaks
    obtain ⟨other, hother, htagged⟩ := (htag.classify_or_losesTag hclass).resolve_right hnot
    obtain rfl := Except.ok.inj (hother.symm.trans hinner)
    have hdefect := defect_of_breaks hpath hmodel hfield hclass htagged hbreaks
    refine ⟨hdefect, ?_⟩
    cases hregister : register graph roots with
    | ok index => exact absurd (registrable_of_register hregister) hdefect.not_registrable
    | error fault => exact ⟨fault, rfl, defect_of_register hregister⟩

def kindTag : EnumTag :=
  ⟨"Kind", ["x"]⟩

/-- One of two models, the first of which carries the tag. -/
def taggedItem : TypeExpr :=
  .union [.annotated (.model ⟨"app.Note"⟩) [.enum kindTag], .model ⟨"app.Task"⟩]

/-- An entry whose item is one of two models. -/
def itemsGraph : ModelGraph :=
  .ofList [
    (⟨"app.Note"⟩, ⟨[⟨"kind", .literal (.str "note"), none⟩]⟩),
    (⟨"app.Task"⟩, ⟨[⟨"kind", .literal (.str "task"), none⟩]⟩),
    (⟨"app.Entry"⟩, ⟨[⟨"item", taggedItem, none⟩]⟩)]

theorem losesTag_taggedItem : taggedItem.LosesTag kindTag (.model ⟨"app.Note"⟩) := by
  have hclass : taggedItem.classify =
      .ok (.unionOfModels [⟨"app.Note"⟩, ⟨"app.Task"⟩] false) := by
    rw [taggedItem, TypeExpr.classify_union_eq, TypeExpr.presentMembers]
    simp [TypeExpr.flatten, List.eraseDups_cons, TypeExpr.absence]
    rfl
  refine ⟨_, _, _, .self _, hclass, [.enum kindTag], List.mem_singleton_self _, ?_⟩
  exact .member (.self _) List.mem_cons_self

/-- A number that carries the tag. -/
def countsGraph : ModelGraph :=
  .ofList [(⟨"app.Count"⟩, ⟨[⟨"value", .annotated (.primitive .int) [.enum kindTag], none⟩]⟩)]

/-- The tag on a model of the union disappears, the tag on a number is refused. -/
theorem register_keeps_tag_iff_items :
    (∃ index, register itemsGraph [⟨"app.Entry"⟩] = .ok index ∧ index.enums.names = [] ∧
      ¬ kindTag.Kept (.model ⟨"app.Note"⟩) index.enums) ∧
    register countsGraph [⟨"app.Count"⟩] = .error (.invalidEnumTag "Kind" .notString) ∧
      countsGraph.Defect [⟨"app.Count"⟩] (.invalidEnumTag "Kind" .notString) := by
  constructor
  · have hitems : (register itemsGraph [⟨"app.Entry"⟩]).toOption.map
        (fun index => index.enums.names) = some [] := by
      simp only [register, addRoots, addRoot, visit_eq_visitWithin]
      decide
    obtain ⟨index, hindex, hnames⟩ := Option.map_eq_some_iff.mp hitems
    have hok := toOption_eq_some_iff.mp hindex
    have hentry := ((register_ok hok).2.order.mem_iff_reachable ⟨"app.Entry"⟩).mpr
      (.root List.mem_cons_self)
    have hloses := losesTag_taggedItem
    have hkept := (register_keeps_tag_iff itemsGraph [⟨"app.Entry"⟩]).1 index hok _ hentry _ rfl
      _ List.mem_cons_self kindTag (.model ⟨"app.Note"⟩) hloses.tagged
    exact ⟨index, hok, hnames, fun h => hkept.mp h hloses⟩
  · have htagged : (TypeExpr.annotated (.primitive .int) [.enum kindTag]).Tagged kindTag
        (.primitive .int) := ⟨_, List.mem_singleton_self _, .self _⟩
    have hnot : ¬ (TypeExpr.annotated (.primitive .int) [.enum kindTag]).LosesTag kindTag
        (.primitive .int) := by
      rintro ⟨members, _, _, hpart, _⟩
      simp at hpart
    have hfault : fault? (register countsGraph [⟨"app.Count"⟩]) =
        some (.invalidEnumTag "Kind" .notString) := by
      simp only [register, addRoots, addRoot, visit_eq_visitWithin]
      decide
    have hdefect := ((register_keeps_tag_iff countsGraph [⟨"app.Count"⟩]).2
      _ (.root List.mem_cons_self) _ rfl _ List.mem_cons_self _ rfl kindTag _ htagged hnot _ _ rfl
      (.notString rfl)).1
    exact ⟨fault?_eq_some_iff.mp hfault, hdefect⟩

end TypeIndex

end SchemaWire
