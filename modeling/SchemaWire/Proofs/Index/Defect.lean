import SchemaWire.Proofs.Index.Registrable

/-!
What the error of a registration means. `Defect` says, constructor by constructor, which model that
is reachable from the roots has what defect. The main statement about it is that a defect is a good
reason: as long as there is one the roots cannot be registered.
-/
namespace SchemaWire

open TypeScript (isIdentifier)

/-- The tag breaks a rule for the tags on a type. -/
inductive EnumTag.Breaks (tag : EnumTag) (inner : Descriptor) : EnumTagFault → Prop where
  | invalidName (hname : isIdentifier tag.name = false) : tag.Breaks inner .invalidName
  | noValues (hvalues : tag.values = []) : tag.Breaks inner .noValues
  | invalidValue {value : String} (hmem : value ∈ tag.values) (hvalue : isEnumValue value = false) :
      tag.Breaks inner .invalidValue
  | notString (hinner : inner.takesEnumTags = false) : tag.Breaks inner .notString

theorem EnumTag.check_error {tag : EnumTag} {inner : Descriptor} {fault : GenError}
    (h : tag.check inner = .error fault) :
    ∃ reason, fault = .invalidEnumTag tag.name reason ∧ tag.Breaks inner reason := by
  unfold check at h
  split at h
  · rename_i hname
    cases h
    exact ⟨_, rfl, .invalidName (by simpa using hname)⟩
  split at h
  · rename_i hvalues
    cases h
    exact ⟨_, rfl, .noValues (by simpa using hvalues)⟩
  split at h
  · rename_i hvalues
    cases h
    obtain ⟨value, hmem, hvalue⟩ : ∃ value ∈ tag.values, isEnumValue value = false := by
      simpa using hvalues
    exact ⟨_, rfl, .invalidValue hmem hvalue⟩
  split at h
  · rename_i hinner
    cases h
    exact ⟨_, rfl, .notString (by simpa using hinner)⟩
  · cases h

theorem EnumTag.Breaks.check_ne_ok {tag : EnumTag} {inner : Descriptor} {reason : EnumTagFault}
    (h : tag.Breaks inner reason) : tag.check inner ≠ .ok () := by
  intro hcheck
  obtain ⟨hname, hvalues, hall, hinner⟩ := EnumTag.check_eq_ok_iff.mp hcheck
  cases h with
  | invalidName h => cases h.symm.trans hname
  | noValues h => exact hvalues h
  | invalidValue hmem h => cases h.symm.trans (hall _ hmem)
  | notString h => cases h.symm.trans hinner

namespace ModelGraph

variable {graph : ModelGraph} {roots : List ModelPath}

/-- The first field of the model has this name and this classified type. -/
def FirstField (graph : ModelGraph) (path : ModelPath) (name : String) (desc : Descriptor) : Prop :=
  ∃ model first rest, graph.get? path = some model ∧ model.fields = first :: rest ∧
    first.name = name ∧ first.ty.classify = .ok desc

/-- Why the variants cannot be told apart. -/
inductive Ambiguous (graph : ModelGraph) (variants : List ModelPath) :
    DiscriminantFault → Prop where
  | noFields {path : ModelPath} {model : ModelDef} (hpath : path ∈ variants)
      (hmodel : graph.get? path = some model) (hfields : model.fields = []) :
      graph.Ambiguous variants (.noFields path.shortName)
  | firstFieldDiffers {first second : ModelPath} {expected name : String}
      {firstDesc secondDesc : Descriptor} (hfirst : first ∈ variants) (hsecond : second ∈ variants)
      (hexpected : graph.FirstField first expected firstDesc)
      (hname : graph.FirstField second name secondDesc) (hne : expected ≠ name) :
      graph.Ambiguous variants (.firstFieldDiffers expected second.shortName name)
  | notLiteral {path : ModelPath} {name : String} {desc : Descriptor} (hpath : path ∈ variants)
      (hfield : graph.FirstField path name desc) (hnot : desc.literal? = none) :
      graph.Ambiguous variants (.notLiteral path.shortName name)
  | sharedLiteral {before after : List ModelPath} {first second : ModelPath}
      {firstName secondName : String} {firstDesc secondDesc : Descriptor} {value : LiteralValue}
      (hvariants : variants = before ++ second :: after) (hfirst : first ∈ before)
      (hfirstField : graph.FirstField first firstName firstDesc)
      (hsecondField : graph.FirstField second secondName secondDesc)
      (hfirstValue : firstDesc.literal? = some value)
      (hsecondValue : secondDesc.literal? = some value) :
      graph.Ambiguous variants (.sharedLiteral first.shortName second.shortName value.display)

/-- A model with a mark has its first field, which is the literal. -/
theorem FirstField.marked {path : ModelPath} {name field : String} {desc : Descriptor}
    {model : ModelDef} {value : LiteralValue} (h : graph.FirstField path name desc)
    (hmodel : graph.get? path = some model) (hmarked : model.Marked field value) :
    name = field ∧ desc.literal? = some value := by
  obtain ⟨source, first, rest, hsource, hfields, rfl, hclass⟩ := h
  obtain ⟨first', rest', desc', hfields', rfl, hclass', hpeel⟩ := hmarked
  cases hsource.symm.trans hmodel
  cases hfields.symm.trans hfields'
  cases hclass.symm.trans hclass'
  exact ⟨rfl, Descriptor.literal?_eq_some_iff.mpr hpeel⟩

/-- Every reason is a good one: what is refused cannot be told apart. -/
theorem Ambiguous.not_discriminable {variants : List ModelPath} {reason : DiscriminantFault}
    (h : graph.Ambiguous variants reason) : ¬ graph.Discriminable variants := by
  rintro ⟨field, values, hmarks, hnodup⟩
  cases h with
  | @noFields path model hpath hmodel hfields =>
      obtain ⟨value, _, source, hsource, first, rest, _, hsourceFields, _⟩ :=
        exists_right_of_forall₂ hmarks path hpath
      cases hmodel.symm.trans hsource
      cases hfields.symm.trans hsourceFields
  | @firstFieldDiffers first second expected name firstDesc secondDesc hfirst hsecond hexpected
      hname hne =>
      obtain ⟨_, _, model, hmodel, hmarked⟩ := exists_right_of_forall₂ hmarks first hfirst
      obtain ⟨_, _, other, hother, hotherMarked⟩ := exists_right_of_forall₂ hmarks second hsecond
      exact hne ((hexpected.marked hmodel hmarked).1.trans
        (hname.marked hother hotherMarked).1.symm)
  | @notLiteral path name desc hpath hfield hnot =>
      obtain ⟨_, _, model, hmodel, hmarked⟩ := exists_right_of_forall₂ hmarks path hpath
      cases hnot.symm.trans (hfield.marked hmodel hmarked).2
  | @sharedLiteral before after first second _ _ _ _ value hvariants hfirst hfirstField
      hsecondField hfirstValue hsecondValue =>
      subst hvariants
      have hearly := List.forall₂_take_append values before (second :: after) hmarks.flip
      have hlate := List.forall₂_drop_append values before (second :: after) hmarks.flip
      obtain ⟨mark, hmark, model, hmodel, hmarked⟩ := exists_left_of_forall₂ hearly first hfirst
      obtain ⟨other, hother, model', hmodel', hmarked'⟩ :=
        exists_left_of_forall₂ hlate second List.mem_cons_self
      rw [← List.take_append_drop before.length values] at hnodup
      refine List.disjoint_of_nodup_append hnodup hmark ?_
      have hfirstMark := (hfirstField.marked hmodel hmarked).2
      have hsecondMark := (hsecondField.marked hmodel' hmarked').2
      rwa [← Option.some.inj (hfirstValue.symm.trans hfirstMark),
        Option.some.inj (hsecondValue.symm.trans hsecondMark)]

namespace Declares

variable {path : ModelPath} {object : ObjectType}

theorem firstField (h : graph.Declares path object) {first : ObjectField} {rest : List ObjectField}
    (hfields : object.fields = first :: rest) :
    graph.FirstField path first.name first.descriptor := by
  obtain ⟨model, hmodel, hdeclares⟩ := h.model
  have hall := hdeclares.fields
  rw [hfields, List.forall₂_cons_right_iff] at hall
  obtain ⟨source, others, hsource, _, hmodelFields⟩ := hall
  exact ⟨model, source, others, hmodel, hmodelFields, hsource.name_eq.symm, hsource.classified⟩

theorem exists_of_no_fields (h : graph.Declares path object) (hfields : object.fields = []) :
    ∃ model, graph.get? path = some model ∧ model.fields = [] := by
  obtain ⟨model, hmodel, hdeclares⟩ := h.model
  have hall := hdeclares.fields
  rw [hfields, List.forall₂_nil_right_iff] at hall
  exact ⟨model, hmodel, hall⟩

end Declares

/-- What an error says about the models that are reachable from the roots. -/
inductive Defect (graph : ModelGraph) (roots : List ModelPath) : GenError → Prop where
  | unsupportedShape {path : ModelPath} {model : ModelDef} {field : FieldDef} {ty : String}
      {reason : ShapeFault} (hpath : Reachable graph.references roots path)
      (hmodel : graph.get? path = some model) (hfield : field ∈ model.fields)
      (hclass : field.ty.classify = .error (.unlocated ty reason)) :
      graph.Defect roots (.unsupportedShape (path.shortName ++ "." ++ field.name) ty reason)
  | unknownModel {path : ModelPath} (hpath : Reachable graph.references roots path)
      (hmissing : graph.get? path = none) : graph.Defect roots (.unknownModel path)
  | invalidIdentifier {path : ModelPath} (hpath : Reachable graph.references roots path)
      (hname : isIdentifier path.shortName = false) :
      graph.Defect roots (.invalidIdentifier path.shortName)
  | nameConflict {path : ModelPath} {claimant : Claimant} {owner : String}
      (hpath : Reachable graph.references roots path) (hclaimant : graph.Claims path claimant)
      (howner : graph.Owns roots claimant.name owner) (hne : owner ≠ claimant.owner) :
      graph.Defect roots (.nameConflict claimant.name owner claimant.owner)
  | invalidEnumTag {path : ModelPath} {tag : EnumTag} {inner : Descriptor} {reason : EnumTagFault}
      (hpath : Reachable graph.references roots path) (htag : graph.Tagged path tag inner)
      (hbreaks : tag.Breaks inner reason) : graph.Defect roots (.invalidEnumTag tag.name reason)
  | ambiguousDiscriminant {path : ModelPath} {desc : Descriptor} {variants : List ModelPath}
      {nullable : Bool} {reason : DiscriminantFault} (hpath : Reachable graph.references roots path)
      (hdesc : desc ∈ graph.descriptors path)
      (hpart : (Descriptor.unionOfModels variants nullable).Part desc)
      (hreason : graph.Ambiguous variants reason) (hnot : ¬ graph.Discriminable variants) :
      graph.Defect roots (.ambiguousDiscriminant (TypeIndex.unionDisplay variants) reason)

/-- The error of a registration has all it needs: a location would not be changed any more. -/
theorem Defect.located_eq {fault : GenError} (h : graph.Defect roots fault) (place : String) :
    fault.located place = fault := by
  cases h with
  | unsupportedShape hpath hmodel hfield hclass =>
      rw [GenError.located, if_neg]
      intro hempty
      have hlength := congrArg String.length hempty
      simp at hlength
  | _ => rfl

/-- As long as a reachable model has a defect the roots cannot be registered. -/
theorem Defect.not_registrable {fault : GenError} (h : graph.Defect roots fault) :
    ¬ graph.Registrable roots := by
  intro hregistrable
  cases h with
  | unsupportedShape hpath hmodel hfield hclass =>
      obtain ⟨desc, hdesc⟩ := hregistrable.classifies _ _ hpath hmodel _ hfield
      cases hclass.symm.trans hdesc
  | unknownModel hpath hmissing =>
      obtain ⟨model, hmodel⟩ := hregistrable.found _ hpath
      cases hmissing.symm.trans hmodel
  | invalidIdentifier hpath hname =>
      cases hname.symm.trans (hregistrable.valid _ hpath)
  | @nameConflict path claimant owner hpath hclaimant howner hne =>
      have hclaimed : graph.Owns roots claimant.name claimant.owner :=
        Or.inr ⟨path, hpath, claimant, hclaimant, rfl, rfl⟩
      exact hne (hregistrable.singleOwners claimant.name owner claimant.owner howner hclaimed)
  | @invalidEnumTag path tag inner reason hpath htag hbreaks =>
      have hfits := hregistrable.fits path hpath tag inner htag
      exact hbreaks.check_ne_ok (EnumTag.check_eq_ok_iff_fits.mpr hfits)
  | ambiguousDiscriminant hpath hdesc hpart _ hnot =>
      exact hnot (hregistrable.discriminable _ hpath _ hdesc _ _ hpart)

end ModelGraph

end SchemaWire
