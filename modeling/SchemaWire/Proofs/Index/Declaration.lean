import Mathlib.Data.List.Forall2
import SchemaWire.Proofs.Naming.Scope

/-!
What declaring a model does. The declared object type has the fields of the model, in order and
with the same names and defaults; its name and those of its conversion functions and enums are
claimed; every tag passes its check. Conversely a model whose fields classify, whose tags are in
order and whose claims agree with an assignment of owners can be declared.
-/
namespace SchemaWire

/-- The declared field has the name and default of the model's field, its classified type, and the
type that is rendered for it. -/
structure FieldDef.Declares (field : FieldDef) (declared : ObjectField) : Prop where
  name_eq : declared.name = field.name
  classified : field.ty.classify = .ok declared.descriptor
  ty_eq : declared.ty = declared.descriptor.render
  default_eq : declared.default = field.default

/-- The object type declares exactly the fields of the model, under the short name of its path. -/
structure ModelDef.Declares (model : ModelDef) (path : ModelPath) (object : ObjectType) : Prop where
  name_eq : object.name = path.shortName
  path_eq : object.path = some path
  exported : object.isExported = true
  fields : List.Forall₂ FieldDef.Declares model.fields object.fields

theorem ModelDef.Declares.names_eq {model : ModelDef} {path : ModelPath} {object : ObjectType}
    (h : model.Declares path object) :
    object.fields.map ObjectField.name = model.fields.map FieldDef.name := by
  rw [← List.forall₂_eq_eq_eq, List.forall₂_map_left_iff, List.forall₂_map_right_iff]
  exact h.fields.flip.imp fun _ _ hfield => hfield.name_eq

namespace ObjectType

/-- The enum tags inside the fields, each with the type it is attached to. -/
def enumTags (object : ObjectType) : List (EnumTag × Descriptor) :=
  object.fields.flatMap fun field => field.descriptor.enumTags

end ObjectType

/-- Everything that a model with these enum tags takes a name for. -/
def ModelPath.claimants (path : ModelPath) (tags : List (EnumTag × Descriptor)) : List Claimant :=
  .model path :: .function .fromWire path :: .function .toWire path ::
    tags.map fun tag => .enum tag.1.name

theorem ModelPath.enum_mem_claimants (path : ModelPath) {tags : List (EnumTag × Descriptor)}
    {tag : EnumTag × Descriptor} (htag : tag ∈ tags) :
    .enum tag.1.name ∈ path.claimants tags := by
  simp only [claimants, List.mem_cons, List.mem_map]
  exact Or.inr (Or.inr (Or.inr ⟨tag, htag, rfl⟩))

/-- The tags that registration takes. -/
theorem EnumTag.check_eq_ok_iff {tag : EnumTag} {inner : Descriptor} :
    tag.check inner = .ok () ↔
      TypeScript.isIdentifier tag.name = true ∧ tag.values ≠ [] ∧
        (∀ value ∈ tag.values, isEnumValue value = true) ∧ inner.takesEnumTags = true := by
  rw [check, ← List.all_eq_true, ne_eq, ← List.isEmpty_iff]
  cases TypeScript.isIdentifier tag.name <;> cases tag.values.isEmpty <;>
    cases tag.values.all isEnumValue <;> cases inner.takesEnumTags <;> simp

/-- All names that a valid model takes are valid. -/
theorem ModelPath.isIdentifier_of_mem_claimants {path : ModelPath}
    {tags : List (EnumTag × Descriptor)} (hvalid : TypeScript.isIdentifier path.shortName = true)
    (hchecked : ∀ tag ∈ tags, tag.1.check tag.2 = .ok ()) :
    ∀ claimant ∈ path.claimants tags, TypeScript.isIdentifier claimant.name = true := by
  intro claimant hmem
  simp only [claimants, List.mem_cons, List.mem_map] at hmem
  rcases hmem with rfl | rfl | rfl | ⟨tag, htag, rfl⟩
  · exact hvalid
  · exact Direction.isIdentifier_functionName hvalid .fromWire
  · exact Direction.isIdentifier_functionName hvalid .toWire
  · exact (EnumTag.check_eq_ok_iff.mp (hchecked tag htag)).1

namespace Scope

theorem declareFields_cons_eq_ok_iff {scope next : Scope} {model : String} {field : FieldDef}
    {rest : List FieldDef} {declared : List ObjectField} :
    scope.declareFields model (field :: rest) = .ok (next, declared) ↔ ∃ desc tagged others,
      field.ty.classify = .ok desc ∧ scope.declareTags desc.enumTags = .ok tagged ∧
        tagged.declareFields model rest = .ok (next, others) ∧
        declared = ⟨field.name, desc, desc.render, field.default⟩ :: others := by
  rw [declareFields, bind_eq_ok_iff]
  constructor
  · rintro ⟨desc, hclass, h⟩
    obtain ⟨tagged, htagged, h⟩ := bind_eq_ok_iff.mp h
    obtain ⟨⟨last, others⟩, hrest, h⟩ := bind_eq_ok_iff.mp h
    cases pure_eq_ok_iff.mp h
    exact ⟨desc, tagged, others, mapError_eq_ok_iff.mp hclass, htagged, hrest, rfl⟩
  · rintro ⟨desc, tagged, others, hclass, htagged, hrest, rfl⟩
    refine ⟨desc, mapError_eq_ok_iff.mpr hclass, bind_eq_ok_iff.mpr ⟨tagged, htagged, ?_⟩⟩
    exact bind_eq_ok_iff.mpr ⟨(next, others), hrest, rfl⟩

/-- A model claims its three names in order before its fields are declared. -/
theorem declareModel_eq_ok_iff {scope next : Scope} {path : ModelPath} {model : ModelDef}
    {object : ObjectType} :
    scope.declareModel path model = .ok (next, object) ↔
      TypeScript.isIdentifier path.shortName = true ∧ ∃ named fromNamed toNamed fields,
        scope.claim (Claimant.model path).name (Claimant.model path).owner = .ok named ∧
        named.claim (Claimant.function .fromWire path).name
          (Claimant.function .fromWire path).owner = .ok fromNamed ∧
        fromNamed.claim (Claimant.function .toWire path).name
          (Claimant.function .toWire path).owner = .ok toNamed ∧
        toNamed.declareFields path.shortName model.fields = .ok (next, fields) ∧
        object = ⟨path.shortName, some path, fields, true⟩ := by
  unfold declareModel
  dsimp only
  split
  · rename_i hvalid
    constructor
    · intro h
      obtain ⟨named, hnamed, h⟩ := bind_eq_ok_iff.mp h
      obtain ⟨fromNamed, hfrom, h⟩ := bind_eq_ok_iff.mp h
      obtain ⟨toNamed, hto, h⟩ := bind_eq_ok_iff.mp h
      obtain ⟨⟨last, fields⟩, hfields, h⟩ := bind_eq_ok_iff.mp h
      cases pure_eq_ok_iff.mp h
      exact ⟨hvalid, named, fromNamed, toNamed, fields, hnamed, hfrom, hto, hfields, rfl⟩
    · rintro ⟨_, named, fromNamed, toNamed, fields, hnamed, hfrom, hto, hfields, rfl⟩
      refine bind_eq_ok_iff.mpr ⟨named, hnamed, bind_eq_ok_iff.mpr ⟨fromNamed, hfrom, ?_⟩⟩
      exact bind_eq_ok_iff.mpr
        ⟨toNamed, hto, bind_eq_ok_iff.mpr ⟨(next, fields), hfields, rfl⟩⟩
  · rename_i hinvalid
    constructor
    · intro h
      cases h
    · rintro ⟨hvalid, _⟩
      exact absurd hvalid hinvalid

theorem declareFields_ok {scope next : Scope} {model : String} {fields : List FieldDef}
    {declared : List ObjectField} (h : scope.declareFields model fields = .ok (next, declared)) :
    List.Forall₂ FieldDef.Declares fields declared ∧
      ∃ tags, tags = declared.flatMap (fun field => field.descriptor.enumTags) ∧
        (∀ tag ∈ tags, tag.1.check tag.2 = .ok ()) ∧
        scope.Grown next (tags.map fun tag => .enum tag.1.name) ∧
        next.enums = tags.foldl (fun enums tag => enums.add tag.1) scope.enums := by
  induction fields generalizing scope declared with
  | nil =>
      cases h
      exact ⟨.nil, [], rfl, by simp, Grown.refl next, rfl⟩
  | cons field rest ih =>
      obtain ⟨descriptor, tagged, others, hclass, htagged, hrest, rfl⟩ :=
        declareFields_cons_eq_ok_iff.mp h
      obtain ⟨hothers, tags, rfl, hchecks, hgrown, henums⟩ := ih hrest
      obtain ⟨hheadChecks, hheadGrown, hheadEnums⟩ := declareTags_ok htagged
      refine ⟨.cons ⟨rfl, hclass, rfl, rfl⟩ hothers, _, rfl, ?_, ?_, ?_⟩
      · intro tag htag
        rcases List.mem_append.mp htag with hin | hin
        · exact hheadChecks tag hin
        · exact hchecks tag hin
      · rw [List.flatMap_cons, List.map_append]
        exact hheadGrown.trans hgrown
      · rw [List.flatMap_cons, List.foldl_append, henums, hheadEnums]

/-- What declaring a model does to the scope, and which object type it gives. -/
structure Declared (scope next : Scope) (path : ModelPath) (model : ModelDef)
    (object : ObjectType) : Prop where
  valid : TypeScript.isIdentifier path.shortName = true
  declares : model.Declares path object
  checked : ∀ tag ∈ object.enumTags, tag.1.check tag.2 = .ok ()
  grown : scope.Grown next (path.claimants object.enumTags)
  enums_eq : next.enums = object.enumTags.foldl (fun enums tag => enums.add tag.1) scope.enums

theorem declareModel_ok {scope next : Scope} {path : ModelPath} {model : ModelDef}
    {object : ObjectType} (h : scope.declareModel path model = .ok (next, object)) :
    scope.Declared next path model object := by
  obtain ⟨hvalid, named, fromNamed, toNamed, fields, hnamed, hfrom, hto, hfields, rfl⟩ :=
    declareModel_eq_ok_iff.mp h
  obtain ⟨hdeclares, tags, rfl, hchecks, hgrown, henums⟩ := declareFields_ok hfields
  refine ⟨hvalid, ⟨rfl, rfl, rfl, hdeclares⟩, hchecks, ?_, ?_⟩
  · have hfunctions := (grown_claim hfrom).trans ((grown_claim hto).trans hgrown)
    exact (grown_claim hnamed).trans hfunctions
  · rw [henums, enums_claim hto, enums_claim hfrom, enums_claim hnamed]
    rfl

theorem exists_declareFields {scope : Scope} {owns : String → String → Prop}
    (hsingle : SingleOwners owns) (hwithin : scope.Within owns) (model : String)
    {fields : List FieldDef}
    (hfields : ∀ field ∈ fields, ∃ desc, field.ty.classify = .ok desc ∧
      ∀ tag ∈ desc.enumTags, tag.1.check tag.2 = .ok () ∧
        owns tag.1.name (Claimant.enum tag.1.name).owner) :
    ∃ result, scope.declareFields model fields = .ok result := by
  induction fields generalizing scope with
  | nil => exact ⟨_, rfl⟩
  | cons field rest ih =>
      obtain ⟨desc, hclass, htags⟩ := hfields field List.mem_cons_self
      obtain ⟨tagged, htagged⟩ := exists_declareTags hsingle hwithin
        (fun tag htag => (htags tag htag).1) (fun tag htag => (htags tag htag).2)
      have htaggedWithin : tagged.Within owns := by
        refine (declareTags_ok htagged).2.1.within hwithin fun claimant hclaimant => ?_
        obtain ⟨tag, htag, rfl⟩ := List.mem_map.mp hclaimant
        exact (htags tag htag).2
      obtain ⟨⟨last, others⟩, hrest⟩ := ih htaggedWithin
        fun field hfield => hfields field (List.mem_cons_of_mem _ hfield)
      refine ⟨(last, ⟨field.name, desc, desc.render, field.default⟩ :: others), ?_⟩
      exact declareFields_cons_eq_ok_iff.mpr
        ⟨desc, tagged, others, hclass, htagged, hrest, rfl⟩

/-- A model in order can be declared in every scope that agrees with an assignment of owners in
which the model has all that it claims. -/
theorem exists_declareModel {scope : Scope} {owns : String → String → Prop}
    (hsingle : SingleOwners owns) (hwithin : scope.Within owns) {path : ModelPath}
    {model : ModelDef} (hvalid : TypeScript.isIdentifier path.shortName = true)
    (hmodel : owns path.shortName (Claimant.model path).owner)
    (hfunctions : ∀ dir, owns (Claimant.function dir path).name (Claimant.function dir path).owner)
    (hfields : ∀ field ∈ model.fields, ∃ desc, field.ty.classify = .ok desc ∧
      ∀ tag ∈ desc.enumTags, tag.1.check tag.2 = .ok () ∧
        owns tag.1.name (Claimant.enum tag.1.name).owner) :
    ∃ result, scope.declareModel path model = .ok result := by
  obtain ⟨named, hnamed⟩ := exists_claim hsingle hwithin hmodel
  have hnamedWithin := hwithin.claim hmodel hnamed
  obtain ⟨fromNamed, hfrom⟩ := exists_claim hsingle hnamedWithin (hfunctions .fromWire)
  have hfromWithin := hnamedWithin.claim (hfunctions .fromWire) hfrom
  obtain ⟨toNamed, hto⟩ := exists_claim hsingle hfromWithin (hfunctions .toWire)
  have htoWithin := hfromWithin.claim (hfunctions .toWire) hto
  obtain ⟨⟨last, fields⟩, hdeclared⟩ :=
    exists_declareFields hsingle htoWithin path.shortName hfields
  exact ⟨(last, ⟨path.shortName, some path, fields, true⟩), declareModel_eq_ok_iff.mpr
    ⟨hvalid, named, fromNamed, toNamed, fields, hnamed, hfrom, hto, hdeclared, rfl⟩⟩

end Scope

end SchemaWire
