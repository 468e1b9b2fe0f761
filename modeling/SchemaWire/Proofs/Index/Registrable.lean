import SchemaWire.Proofs.Index.Registration

/-!
When a registration succeeds. A graph and its roots are registrable if every reachable model is in
the graph and in order, no two declarations take the same name, and every union can be told apart.
The main statement is that registration succeeds for these and fails for all others, so that the
order in which it meets names, tags and unions decides only which error is reported.
-/
namespace SchemaWire

open TypeScript (isIdentifier)

/-- The first field has the name, and under its attachments its type is the literal. -/
def ModelDef.Marked (model : ModelDef) (field : String) (value : LiteralValue) : Prop :=
  ∃ first rest desc, model.fields = first :: rest ∧ first.name = field ∧
    first.ty.classify = .ok desc ∧ desc.peel = .literal value

theorem ModelDef.Declares.marked_iff {model : ModelDef} {path : ModelPath} {object : ObjectType}
    (h : model.Declares path object) {field : String} {value : LiteralValue} :
    model.Marked field value ↔ object.Marked field value := by
  have hfields := h.fields
  unfold ModelDef.Marked ObjectType.Marked
  constructor
  · rintro ⟨first, rest, desc, hmodel, rfl, hclass, hpeel⟩
    rw [hmodel, List.forall₂_cons_left_iff] at hfields
    obtain ⟨declared, others, hdeclares, _, hobject⟩ := hfields
    obtain rfl := Except.ok.inj (hclass.symm.trans hdeclares.classified)
    exact ⟨declared, others, hobject, hdeclares.name_eq, hpeel⟩
  · rintro ⟨declared, others, hobject, rfl, hpeel⟩
    rw [hobject, List.forall₂_cons_right_iff] at hfields
    obtain ⟨first, rest, hdeclares, _, hmodel⟩ := hfields
    exact ⟨first, rest, _, hmodel, hdeclares.name_eq.symm, hdeclares.classified, hpeel⟩

/-- The tag obeys the rules: it has a name and values that can be declared, and it is attached to
strings. -/
structure EnumTag.Fits (tag : EnumTag) (inner : Descriptor) : Prop where
  name : isIdentifier tag.name = true
  nonempty : tag.values ≠ []
  values : ∀ value ∈ tag.values, isEnumValue value = true
  string : inner.peel = .primitive .str ∨ ∃ text, inner.peel = .literal (.str text)

theorem EnumTag.check_eq_ok_iff_fits {tag : EnumTag} {inner : Descriptor} :
    tag.check inner = .ok () ↔ tag.Fits inner := by
  rw [check_eq_ok_iff, Descriptor.takesEnumTags_iff]
  exact ⟨fun ⟨hname, hne, hvalues, hstring⟩ => ⟨hname, hne, hvalues, hstring⟩,
    fun h => ⟨h.name, h.nonempty, h.values, h.string⟩⟩

namespace ModelGraph

/-- The variants have first fields of one name that are literals, no two of them the same. -/
def Discriminable (graph : ModelGraph) (variants : List ModelPath) : Prop :=
  ∃ field values, List.Forall₂ (fun path value => ∃ model, graph.get? path = some model ∧
    model.Marked field value) variants values ∧ values.Nodup

/-- Everything that registering the roots asks of the models reachable from them. -/
structure Registrable (graph : ModelGraph) (roots : List ModelPath) : Prop where
  found : ∀ path, Reachable graph.references roots path → ∃ model, graph.get? path = some model
  valid : ∀ path, Reachable graph.references roots path → isIdentifier path.shortName = true
  classifies : ∀ path model, Reachable graph.references roots path →
    graph.get? path = some model → ∀ field ∈ model.fields, ∃ desc, field.ty.classify = .ok desc
  fits : ∀ path, Reachable graph.references roots path →
    ∀ tag inner, graph.Tagged path tag inner → tag.Fits inner
  distinct : ∀ path other, Reachable graph.references roots path →
    Reachable graph.references roots other →
      ∀ first second, graph.Claims path first → graph.Claims other second →
        first.name = second.name → first = second
  free : ∀ path, Reachable graph.references roots path →
    ∀ claimant, graph.Claims path claimant → claimant.name ∉ reservedOwners.map Prod.fst
  discriminable : ∀ path, Reachable graph.references roots path →
    ∀ desc ∈ graph.descriptors path, ∀ variants nullable,
      (Descriptor.unionOfModels variants nullable).Part desc → graph.Discriminable variants

end ModelGraph

/-- Reserved names belong to reserved texts, and nothing else has an owner from the start. -/
theorem Scope.owner?_initial {name text : String} (h : Scope.initial.owner? name = some text) :
    name ∈ reservedOwners.map Prod.fst ∧ text ∈ Claimant.reservedTexts := by
  obtain ⟨before, after, howners, _⟩ := List.lookup_eq_some_iff.mp h
  have hmem : (name, text) ∈ reservedOwners := by
    change (name, text) ∈ Scope.initial.owners
    rw [howners]
    exact List.mem_append_right _ List.mem_cons_self
  exact ⟨List.mem_map.mpr ⟨_, hmem, rfl⟩, Claimant.mem_reservedTexts hmem⟩

theorem Scope.exists_owner?_initial {name : String} (h : name ∈ reservedOwners.map Prod.fst) :
    ∃ text, Scope.initial.owner? name = some text := by
  obtain ⟨entry, hentry, rfl⟩ := List.mem_map.mp h
  exact Option.isSome_iff_exists.mp (List.lookup_isSome_iff.mpr ⟨entry, hentry, by simp⟩)

namespace TypeIndex

variable {graph : ModelGraph} {roots : List ModelPath} {index : TypeIndex}

namespace Sound

/-- In a sound index no two declarations take the same name. -/
theorem eq_of_name_eq (h : index.Sound) {first second : Claimant}
    (hfirst : first ∈ claimants index.objects) (hsecond : second ∈ claimants index.objects)
    (hvalid : isIdentifier first.name = true) (hname : first.name = second.name) :
    first = second := by
  have hfirstOwner := h.grown.owner? hfirst
  have hsecondOwner := h.grown.owner? hsecond
  rw [hname, hsecondOwner] at hfirstOwner
  exact Claimant.eq_of_owner_eq hvalid hname (Option.some.inj hfirstOwner).symm

/-- In a sound index no declaration takes a reserved name. -/
theorem not_reserved (h : index.Sound) {claimant : Claimant}
    (hmem : claimant ∈ claimants index.objects) (hvalid : isIdentifier claimant.name = true) :
    claimant.name ∉ reservedOwners.map Prod.fst := by
  intro hreserved
  obtain ⟨text, hinitial⟩ := Scope.exists_owner?_initial hreserved
  have howner := h.grown.owner? hmem
  rw [(h.grown _ _).mpr (Or.inl hinitial)] at howner
  refine Claimant.owner_not_mem_reservedTexts hvalid ?_
  rw [← Option.some.inj howner]
  exact (Scope.owner?_initial hinitial).2

end Sound

theorem Covers.claimants_eq (h : Covers graph roots index) {path : ModelPath}
    {object : ObjectType} (hobject : index.object? path = some object) :
    graph.claimants path = path.claimants object.enumTags := by
  rw [ModelGraph.claimants, (h.object_declares hobject).enumTags_eq]

theorem mem_claimants_of_object? {path : ModelPath} {object : ObjectType}
    (hobject : index.object? path = some object) {claimant : Claimant}
    (hmem : claimant ∈ path.claimants object.enumTags) : claimant ∈ claimants index.objects :=
  List.mem_flatMap.mpr ⟨_, mem_objects_of_object? hobject, hmem⟩

theorem Covers.discriminable (h : Covers graph roots index) {variants : List ModelPath}
    {found : String × UnionArms} (hdisc : index.discriminant variants = .ok found) :
    graph.Discriminable variants := by
  obtain ⟨_, values, hmarks, hnodup, _⟩ := discriminant_eq_ok_iff.mp hdisc
  refine ⟨found.1, values, hmarks.imp ?_, hnodup⟩
  rintro path value ⟨object, hobject, hmarked⟩
  obtain ⟨model, hmodel, hdeclares⟩ := (h.object_declares hobject).model
  exact ⟨model, hmodel, hdeclares.marked_iff.mpr hmarked⟩

/-- The conversions of a consistent index tell apart every union inside a declared field. -/
theorem Consistent.discriminant (h : index.Consistent) {path : ModelPath} {object : ObjectType}
    (hobject : index.object? path = some object) {field : ObjectField}
    (hfield : field ∈ object.fields) {variants : List ModelPath}
    (hmem : variants ∈ field.descriptor.modelUnions) :
    ∃ found, index.discriminant variants = .ok found := by
  have hpath : path ∈ index.paths := exists_object_iff.mp ⟨object, hobject⟩
  obtain ⟨function, _, hbuilt⟩ := h.exists_function hpath .fromWire
  obtain ⟨declared, entries, hdeclared, hconverts⟩ := wireFunction_ok hbuilt
  obtain rfl := Option.some.inj (hobject.symm.trans hdeclared)
  obtain ⟨_, _, converted, hkeep, _⟩ :=
    exists_right_of_forall₂ (convertFields_eq_ok_iff.mp hconverts.entries_ok) field hfield
  obtain ⟨result, hresult⟩ := exists_convertOrKeep_iff.mp ⟨converted, hkeep⟩
  have hwell := h.wellFormed _ (mem_objects_of_object? hobject) field hfield
  exact discriminant_of_convert hwell hresult variants hmem

theorem registrable_of_register (h : register graph roots = .ok index) :
    graph.Registrable roots := by
  obtain ⟨hsound, hcovers⟩ := register_ok h
  have hdeclared : ∀ path, Reachable graph.references roots path →
      ∃ object, index.object? path = some object := fun path hpath =>
    exists_object_iff.mpr ((hcovers.order.mem_iff_reachable path).mpr hpath)
  have hclaims : ∀ path, Reachable graph.references roots path →
      ∀ claimant, graph.Claims path claimant →
        claimant ∈ claimants index.objects ∧ isIdentifier claimant.name = true := by
    intro path hpath claimant hclaims
    obtain ⟨object, hobject⟩ := hdeclared path hpath
    have hdeclares := hcovers.object_declares hobject
    have hmem := ModelGraph.mem_claimants_iff.mpr hclaims
    rw [hcovers.claimants_eq hobject] at hmem
    exact ⟨mem_claimants_of_object? hobject hmem,
      ModelPath.isIdentifier_of_mem_claimants hdeclares.valid hdeclares.checked claimant hmem⟩
  refine ⟨?_, ?_, ?_, ?_, ?_, ?_, ?_⟩
  · intro path hpath
    obtain ⟨object, hobject⟩ := hdeclared path hpath
    obtain ⟨model, hmodel, _⟩ := (hcovers.object_declares hobject).model
    exact ⟨model, hmodel⟩
  · intro path hpath
    obtain ⟨object, hobject⟩ := hdeclared path hpath
    exact (hcovers.object_declares hobject).valid
  · intro path model hpath hmodel field hfield
    obtain ⟨object, hobject⟩ := hdeclared path hpath
    obtain ⟨source, hsource, hdeclares⟩ := (hcovers.object_declares hobject).model
    obtain rfl := Option.some.inj (hmodel.symm.trans hsource)
    obtain ⟨declared, _, hfieldDeclares⟩ := exists_right_of_forall₂ hdeclares.fields field hfield
    exact ⟨declared.descriptor, hfieldDeclares.classified⟩
  · intro path hpath tag inner htagged
    obtain ⟨object, hobject⟩ := hdeclared path hpath
    have hdeclares := hcovers.object_declares hobject
    have htag := ModelGraph.mem_enumTags_iff.mpr htagged
    rw [hdeclares.enumTags_eq] at htag
    exact EnumTag.check_eq_ok_iff_fits.mp (hdeclares.checked _ htag)
  · intro path other hpath hother first second hfirst hsecond hname
    obtain ⟨hfirstMem, hvalid⟩ := hclaims path hpath first hfirst
    exact hsound.eq_of_name_eq hfirstMem (hclaims other hother second hsecond).1 hvalid hname
  · intro path hpath claimant hmem
    obtain ⟨hclaimed, hvalid⟩ := hclaims path hpath claimant hmem
    exact hsound.not_reserved hclaimed hvalid
  · intro path hpath desc hdesc variants nullable hpart
    have hvariants := (Descriptor.mem_modelUnions_iff
      (ModelGraph.wellFormed_of_mem_descriptors hdesc)).mpr ⟨nullable, hpart⟩
    obtain ⟨object, hobject⟩ := hdeclared path hpath
    rw [(hcovers.object_declares hobject).descriptors_eq] at hdesc
    obtain ⟨field, hfield, rfl⟩ := List.mem_map.mp hdesc
    obtain ⟨found, hfound⟩ := hsound.discriminant hobject hfield hvariants
    exact hcovers.discriminable hfound

/-- In an index that is closed under references, every union that the graph can tell apart has a
discriminant. -/
theorem Covers.exists_discriminant (h : Covers graph roots index) {variants : List ModelPath}
    (hlength : 2 ≤ variants.length) (hdeclared : ∀ path ∈ variants, path ∈ index.paths)
    (hdisc : graph.Discriminable variants) : ∃ found, index.discriminant variants = .ok found := by
  obtain ⟨field, values, hmarks, hnodup⟩ := hdisc
  have hne : variants ≠ [] := by
    rintro rfl
    simp at hlength
  refine ⟨(field, variants.zip values), discriminant_eq_ok_iff.mpr ⟨hne, values, ?_, hnodup, rfl⟩⟩
  refine List.forall₂_iff_zip.mpr ⟨hmarks.length_eq, fun {path value} hmem => ?_⟩
  obtain ⟨model, hmodel, hmarked⟩ := List.forall₂_zip hmarks hmem
  obtain ⟨object, hobject⟩ := exists_object_iff.mpr (hdeclared path (List.of_mem_zip hmem).1)
  obtain ⟨source, hsource, hdeclares⟩ := (h.object_declares hobject).model
  obtain rfl := Option.some.inj (hmodel.symm.trans hsource)
  exact ⟨object, hobject, hdeclares.marked_iff.mp hmarked⟩

theorem Covers.exists_wireFunction (h : Covers graph roots index)
    (hregistrable : graph.Registrable roots) {path : ModelPath} (hpath : path ∈ index.paths)
    (dir : Direction) : ∃ function, index.wireFunction dir path = .ok function := by
  obtain ⟨object, hobject⟩ := exists_object_iff.mpr hpath
  have hdeclares := h.object_declares hobject
  refine TypeIndex.exists_wireFunction hobject fun field hfield src depth => ?_
  have hdesc : field.descriptor ∈ graph.descriptors path := by
    rw [hdeclares.descriptors_eq]
    exact List.mem_map_of_mem hfield
  have hmentioned : ∀ other ∈ field.descriptor.models, other ∈ index.paths := fun other hother =>
    h.closed hpath (List.mem_flatMap.mpr ⟨field.descriptor, hdesc, hother⟩)
  refine exists_convert src depth ?_ ?_
  · intro other hother
    exact exists_object_iff.mpr (hmentioned other (Descriptor.mem_models.mpr hother))
  · intro variants hvariants
    have hreachable := (h.order.mem_iff_reachable path).mp hpath
    obtain ⟨nullable, hpart⟩ := Descriptor.exists_part_of_mem_modelUnions hvariants
    refine h.exists_discriminant ?_ ?_
      (hregistrable.discriminable path hreachable _ hdesc variants nullable hpart)
    · exact Descriptor.length_of_mem_modelUnions (hdeclares.wellFormed hfield) hvariants
    · intro variant hvariant
      exact hmentioned variant (Descriptor.mem_models_of_mem_modelUnions hvariants variant hvariant)

end TypeIndex

namespace ModelGraph

/-- The owners that a registration of the roots gives to names: those of the reserved names, and
the reachable models with all that they declare. -/
def Owns (graph : ModelGraph) (roots : List ModelPath) (name text : String) : Prop :=
  Scope.initial.owner? name = some text ∨
    ∃ path, Reachable graph.references roots path ∧
      ∃ claimant, graph.Claims path claimant ∧ claimant.name = name ∧ claimant.owner = text

namespace Registrable

variable {graph : ModelGraph} {roots : List ModelPath}

theorem mono {others : List ModelPath} (h : graph.Registrable roots)
    (hsub : ∀ root ∈ others, root ∈ roots) : graph.Registrable others :=
  ⟨fun path hpath => h.found path (hpath.mono hsub),
    fun path hpath => h.valid path (hpath.mono hsub),
    fun path model hpath => h.classifies path model (hpath.mono hsub),
    fun path hpath => h.fits path (hpath.mono hsub),
    fun path other hpath hother => h.distinct path other (hpath.mono hsub) (hother.mono hsub),
    fun path hpath => h.free path (hpath.mono hsub),
    fun path hpath => h.discriminable path (hpath.mono hsub)⟩

theorem singleOwners (h : graph.Registrable roots) : SingleOwners (graph.Owns roots) := by
  rintro name first second (hfirst | ⟨path, hpath, claimant, hclaimant, rfl, rfl⟩)
    (hsecond | ⟨other, hother, claimant', hclaimant', hname, rfl⟩)
  · exact Option.some.inj (hfirst.symm.trans hsecond)
  · subst hname
    exact absurd (Scope.owner?_initial hfirst).1 (h.free other hother claimant' hclaimant')
  · exact absurd (Scope.owner?_initial hsecond).1 (h.free path hpath claimant hclaimant)
  · rw [h.distinct path other hpath hother claimant claimant' hclaimant hclaimant' hname.symm]

theorem admits (h : graph.Registrable roots) {path : ModelPath}
    (hpath : Reachable graph.references roots path) :
    graph.Admits (graph.Owns roots) path := by
  obtain ⟨model, hmodel⟩ := h.found path hpath
  refine ⟨⟨model, hmodel, h.classifies path model hpath hmodel⟩, h.valid path hpath,
    fun tag htag => ?_, fun claimant hclaimant => ?_⟩
  · exact EnumTag.check_eq_ok_iff_fits.mpr
      (h.fits path hpath tag.1 tag.2 (ModelGraph.mem_enumTags_iff.mp htag))
  · exact Or.inr ⟨path, hpath, claimant, ModelGraph.mem_claimants_iff.mp hclaimant, rfl, rfl⟩

end Registrable

end ModelGraph

namespace TypeIndex

variable {graph : ModelGraph} {roots before : List ModelPath} {index : TypeIndex}

theorem Covers.within (hcovers : Covers graph before index) (hsound : index.Sound)
    (hsub : ∀ root ∈ before, root ∈ roots) : index.scope.Within (graph.Owns roots) := by
  intro name text howner
  rcases (hsound.grown name text).mp howner with hinitial | ⟨claimant, hmem, hname, htext⟩
  · exact Or.inl hinitial
  · obtain ⟨entry, hentry, hclaimant⟩ := List.mem_flatMap.mp hmem
    have hpath : entry.1 ∈ index.paths := List.mem_map_of_mem hentry
    have hreachable := ((hcovers.order.mem_iff_reachable entry.1).mp hpath).mono hsub
    refine Or.inr ⟨entry.1, hreachable, claimant, ModelGraph.mem_claimants_iff.mp ?_, hname, htext⟩
    rw [ModelGraph.claimants, (hcovers.declares entry hentry).enumTags_eq]
    exact hclaimant

/-- A root of a registrable graph can be added after others. -/
theorem exists_addRoot (hregistrable : graph.Registrable roots) (hsound : index.Sound)
    (hcovers : Covers graph before index) {root : ModelPath}
    (hsub : ∀ other ∈ before ++ [root], other ∈ roots) :
    ∃ next, addRoot graph root index = .ok next := by
  have hwithin := hcovers.within hsound fun other hother => hsub other (by simp [hother])
  obtain ⟨visited, hvisit⟩ := @exists_visit _ _ hregistrable.singleOwners [root] _ hwithin
    fun path hpath => hregistrable.admits (hpath.mono fun other hother => hsub other (by
      simp [List.mem_singleton.mp hother]))
  obtain ⟨added, hadded, horder⟩ := visit_ok hvisit
  have hvisited := hcovers.added hadded horder
  have hregistrable' : graph.Registrable (before ++ [root]) := hregistrable.mono hsub
  have hfunctions : ∀ dir, ∃ functions,
      visited.Builds dir (visited.paths.drop index.size) functions := fun dir =>
    exists_builds fun path hpath =>
      hvisited.exists_wireFunction hregistrable' (List.mem_of_mem_drop hpath) dir
  obtain ⟨fromNew, hfrom⟩ := hfunctions .fromWire
  obtain ⟨toNew, hto⟩ := hfunctions .toWire
  exact ⟨_, bind_eq_ok_iff.mpr ⟨visited, hvisit, bind_eq_ok_iff.mpr
    ⟨(fromNew, toNew), wireFunctions_eq_ok_iff.mpr ⟨hfrom, hto⟩, rfl⟩⟩⟩

theorem exists_addRoots {pending : List ModelPath} (hregistrable : graph.Registrable roots)
    (hsound : index.Sound) (hcovers : Covers graph before index)
    (hsub : ∀ root ∈ before ++ pending, root ∈ roots) :
    ∃ next, addRoots graph pending index = .ok next := by
  induction pending generalizing before index with
  | nil => exact ⟨index, rfl⟩
  | cons root rest ih =>
      obtain ⟨middle, hmiddle⟩ := exists_addRoot hregistrable hsound hcovers (fun other hother =>
        hsub other (by
          simp only [List.mem_append, List.mem_cons] at hother ⊢
          tauto))
      obtain ⟨next, hnext⟩ := ih (hsound.addRoot hmiddle) (hcovers.addRoot hmiddle)
        (by simpa using hsub)
      exact ⟨next, bind_eq_ok_iff.mpr ⟨middle, hmiddle, hnext⟩⟩

/-- Registration succeeds exactly for registrable graphs and roots. -/
theorem exists_register_iff_registrable {graph : ModelGraph} {roots : List ModelPath} :
    (∃ index, register graph roots = .ok index) ↔ graph.Registrable roots := by
  constructor
  · rintro ⟨index, h⟩
    exact registrable_of_register h
  · intro h
    exact @exists_addRoots _ roots [] _ roots h sound_empty ⟨.done [], by simp [empty]⟩ (by simp)

/-- A badge of a user, with an enum of the given name inside the type of its levels. -/
def badgeModel (enumName : String) : ModelDef :=
  ⟨[⟨"levels", .list (.annotated (.primitive .str) [.enum ⟨enumName, ["low", "high"]⟩]), none⟩,
    ⟨"owner", .model ⟨"app.User"⟩, none⟩]⟩

def badgeGraph (enumName : String) : ModelGraph :=
  .ofList [(⟨"app.Badge"⟩, badgeModel enumName),
    (⟨"app.User"⟩, ⟨[⟨"id", .primitive .str, none⟩]⟩)]

theorem mem_descriptors_badgeGraph {enumName : String} {desc : Descriptor}
    (h : desc ∈ (badgeModel enumName).descriptors) :
    desc ∈ (badgeGraph enumName).descriptors ⟨"app.Badge"⟩ := by
  have hne : "app.Badge" ≠ "app.User" := by decide
  have hmodel : (badgeGraph enumName).get? ⟨"app.Badge"⟩ = some (badgeModel enumName) :=
    (SortedMap.get?_insert_of_ne _ hne _).trans (SortedMap.get?_insert_self _ _ _)
  rwa [ModelGraph.descriptors_of_get? hmodel]

theorem tagged_badgeGraph (enumName : String) :
    (badgeGraph enumName).Tagged ⟨"app.Badge"⟩ ⟨enumName, ["low", "high"]⟩ (.primitive .str) :=
  ⟨_, mem_descriptors_badgeGraph List.mem_cons_self, _, List.mem_cons_self, .list (.self _)⟩

/-- An enum of a name of its own is registered. One with the name of the user is not, although the
two stand in different models. -/
theorem exists_register_iff_registrable_badge :
    (∃ index, register (badgeGraph "Level") [⟨"app.Badge"⟩] = .ok index) ∧
      (badgeGraph "Level").Registrable [⟨"app.Badge"⟩] ∧
      (badgeGraph "Level").Tagged ⟨"app.Badge"⟩ ⟨"Level", ["low", "high"]⟩ (.primitive .str) ∧
      ¬(badgeGraph "User").Registrable [⟨"app.Badge"⟩] ∧
      ¬∃ index, register (badgeGraph "User") [⟨"app.Badge"⟩] = .ok index := by
  have hlevel : ∃ index, register (badgeGraph "Level") [⟨"app.Badge"⟩] = .ok index := by
    refine exists_ok_of_isSome ?_
    simp only [register, addRoots, addRoot, visit_eq_visitWithin]
    decide
  have hbadge : Reachable (badgeGraph "User").references [⟨"app.Badge"⟩] ⟨"app.Badge"⟩ :=
    .root List.mem_cons_self
  have huser : Reachable (badgeGraph "User").references [⟨"app.Badge"⟩] ⟨"app.User"⟩ :=
    hbadge.step (ModelGraph.mem_references_iff.mpr ⟨_, mem_descriptors_badgeGraph
      (List.mem_cons_of_mem _ List.mem_cons_self), Or.inl (.self _)⟩)
  have hclash : ¬(badgeGraph "User").Registrable [⟨"app.Badge"⟩] := by
    intro h
    cases h.distinct _ _ hbadge huser _ _ (.enum (tagged_badgeGraph "User")) .model (by decide)
  exact ⟨hlevel, exists_register_iff_registrable.mp hlevel, tagged_badgeGraph "Level", hclash,
    fun h => hclash (exists_register_iff_registrable.mp h)⟩

end TypeIndex

end SchemaWire
