import SchemaWire.Index.Register
import SchemaWire.Proofs.Descriptor.Tags
import SchemaWire.Proofs.Index.Declaration
import SchemaWire.Proofs.Traversal.Preorder

/-!
What a traversal declares. The models of a graph refer to each other through the types of their
fields; a traversal that succeeds adds the models reachable from the pending paths that are not
declared, in depth-first preorder, and one whose reachable models are all in order succeeds.
-/
namespace SchemaWire

open TypeScript (isIdentifier)

namespace ModelDef

/-- The descriptors of the fields that classify, in order. -/
def descriptors (model : ModelDef) : List Descriptor :=
  model.fields.filterMap fun field => field.ty.classify.toOption

theorem mem_descriptors {model : ModelDef} {field : FieldDef} {desc : Descriptor}
    (hfield : field ∈ model.fields) (hclass : field.ty.classify = .ok desc) :
    desc ∈ model.descriptors :=
  List.mem_filterMap.mpr ⟨field, hfield, by rw [hclass]; rfl⟩

theorem wellFormed_of_mem_descriptors {model : ModelDef} {desc : Descriptor}
    (h : desc ∈ model.descriptors) : desc.WellFormed := by
  obtain ⟨field, _, hdesc⟩ := List.mem_filterMap.mp h
  exact TypeExpr.wellFormed_of_classify (toOption_eq_some_iff.mp hdesc)

theorem Declares.descriptors_eq {model : ModelDef} {path : ModelPath} {object : ObjectType}
    (h : model.Declares path object) :
    model.descriptors = object.fields.map ObjectField.descriptor := by
  have hfields : ∀ {fields : List FieldDef} {declared : List ObjectField},
      List.Forall₂ FieldDef.Declares fields declared →
        fields.filterMap (fun field => field.ty.classify.toOption) =
          declared.map ObjectField.descriptor := by
    intro fields declared hforall
    induction hforall with
    | nil => rfl
    | cons hhead _ ih =>
        rw [List.filterMap_cons, hhead.classified, List.map_cons, ← ih]
        rfl
  exact hfields h.fields

end ModelDef

namespace ModelGraph

/-- The descriptors of a model's fields. A path that is not in the graph has none. -/
def descriptors (graph : ModelGraph) (path : ModelPath) : List Descriptor :=
  match graph.get? path with
  | some model => model.descriptors
  | none => []

/-- The models to which a model refers: field by field, in the order of their first mention. -/
def references (graph : ModelGraph) (path : ModelPath) : List ModelPath :=
  (graph.descriptors path).flatMap Descriptor.models

def enumTags (graph : ModelGraph) (path : ModelPath) : List (EnumTag × Descriptor) :=
  (graph.descriptors path).flatMap Descriptor.enumTags

/-- Everything that a model takes a name for. -/
def claimants (graph : ModelGraph) (path : ModelPath) : List Claimant :=
  path.claimants (graph.enumTags path)

/-- Somewhere inside a field of the model the tag is attached to the descriptor. -/
def Tagged (graph : ModelGraph) (path : ModelPath) (tag : EnumTag) (inner : Descriptor) : Prop :=
  ∃ desc ∈ graph.descriptors path, desc.Tagged tag inner

/-- What a model takes a name for: itself, its two conversion functions, and the enums that stand
inside its fields. -/
inductive Claims (graph : ModelGraph) (path : ModelPath) : Claimant → Prop where
  | model : graph.Claims path (.model path)
  | function (dir : Direction) : graph.Claims path (.function dir path)
  | enum {tag : EnumTag} {inner : Descriptor} (htag : graph.Tagged path tag inner) :
      graph.Claims path (.enum tag.name)

section

variable {graph : ModelGraph} {path : ModelPath}

theorem descriptors_of_get? {model : ModelDef} (h : graph.get? path = some model) :
    graph.descriptors path = model.descriptors := by
  rw [descriptors, h]

theorem mem_descriptors {model : ModelDef} {field : FieldDef} {desc : Descriptor}
    (hmodel : graph.get? path = some model) (hfield : field ∈ model.fields)
    (hclass : field.ty.classify = .ok desc) : desc ∈ graph.descriptors path := by
  rw [descriptors_of_get? hmodel]
  exact ModelDef.mem_descriptors hfield hclass

theorem wellFormed_of_mem_descriptors {desc : Descriptor} (h : desc ∈ graph.descriptors path) :
    desc.WellFormed := by
  unfold descriptors at h
  split at h
  · exact ModelDef.wellFormed_of_mem_descriptors h
  · cases h

/-- A model refers to the models that its fields name, at any depth. -/
theorem mem_references_iff {other : ModelPath} :
    other ∈ graph.references path ↔ ∃ desc ∈ graph.descriptors path, desc.Names other := by
  rw [references, List.mem_flatMap]
  exact exists_congr fun desc => and_congr_right fun hdesc =>
    Descriptor.mem_models_iff_names (wellFormed_of_mem_descriptors hdesc)

theorem mem_enumTags_iff {tag : EnumTag} {inner : Descriptor} :
    (tag, inner) ∈ graph.enumTags path ↔ graph.Tagged path tag inner := by
  rw [enumTags, List.mem_flatMap]
  exact exists_congr fun desc => and_congr_right fun _ =>
    Descriptor.mem_enumTags_iff desc

theorem mem_claimants_iff {claimant : Claimant} :
    claimant ∈ graph.claimants path ↔ graph.Claims path claimant := by
  simp only [claimants, ModelPath.claimants, List.mem_cons, List.mem_map]
  constructor
  · rintro (rfl | rfl | rfl | ⟨⟨tag, inner⟩, htag, rfl⟩)
    · exact .model
    · exact .function .fromWire
    · exact .function .toWire
    · exact .enum (mem_enumTags_iff.mp htag)
  · rintro (_ | dir | @⟨tag, inner, htag⟩)
    · exact Or.inl rfl
    · cases dir <;> simp
    · exact Or.inr (Or.inr (Or.inr ⟨(tag, inner), mem_enumTags_iff.mpr htag, rfl⟩))

end

/-- The object type declares the model of the path, and what it declares is in order. -/
structure Declares (graph : ModelGraph) (path : ModelPath) (object : ObjectType) : Prop where
  model : ∃ model, graph.get? path = some model ∧ model.Declares path object
  valid : isIdentifier path.shortName = true
  checked : ∀ tag ∈ object.enumTags, tag.1.check tag.2 = .ok ()

namespace Declares

variable {graph : ModelGraph} {path : ModelPath} {object : ObjectType}

theorem name_eq (h : graph.Declares path object) : object.name = path.shortName := by
  obtain ⟨model, _, hdeclares⟩ := h.model
  exact hdeclares.name_eq

theorem descriptors_eq (h : graph.Declares path object) :
    graph.descriptors path = object.fields.map ObjectField.descriptor := by
  obtain ⟨model, hmodel, hdeclares⟩ := h.model
  rw [descriptors_of_get? hmodel, hdeclares.descriptors_eq]

theorem references_eq (h : graph.Declares path object) :
    graph.references path = object.references := by
  rw [references, h.descriptors_eq, List.flatMap_map]
  rfl

theorem enumTags_eq (h : graph.Declares path object) :
    graph.enumTags path = object.enumTags := by
  rw [enumTags, h.descriptors_eq, List.flatMap_map]
  rfl

theorem wellFormed (h : graph.Declares path object) {field : ObjectField}
    (hfield : field ∈ object.fields) : field.descriptor.WellFormed := by
  obtain ⟨model, _, hdeclares⟩ := h.model
  obtain ⟨source, _, hsource⟩ := exists_left_of_forall₂ hdeclares.fields field hfield
  exact TypeExpr.wellFormed_of_classify hsource.classified

theorem rendered (h : graph.Declares path object) {field : ObjectField}
    (hfield : field ∈ object.fields) : field.ty = field.descriptor.render := by
  obtain ⟨model, _, hdeclares⟩ := h.model
  obtain ⟨source, _, hsource⟩ := exists_left_of_forall₂ hdeclares.fields field hfield
  exact hsource.ty_eq

end Declares

/-- The model of the path can be declared wherever the assignment of owners is respected. -/
structure Admits (graph : ModelGraph) (owns : String → String → Prop) (path : ModelPath) :
    Prop where
  model : ∃ model, graph.get? path = some model ∧
    ∀ field ∈ model.fields, ∃ desc, field.ty.classify = .ok desc
  valid : isIdentifier path.shortName = true
  checked : ∀ tag ∈ graph.enumTags path, tag.1.check tag.2 = .ok ()
  owned : ∀ claimant ∈ graph.claimants path, owns claimant.name claimant.owner

end ModelGraph

namespace TypeIndex

/-- Everything that the declared models take a name for. -/
def claimants (objects : List (ModelPath × ObjectType)) : List Claimant :=
  objects.flatMap fun entry => entry.1.claimants entry.2.enumTags

/-- The model behind each name, once the names of some models are put into the list in order. -/
def putNames (names : List (String × ModelPath)) (objects : List (ModelPath × ObjectType)) :
    List (String × ModelPath) :=
  objects.foldl (fun names entry => putEntry entry.2.name entry.1 names) names

/-- The index `next` holds what the index holds and the added models of the graph. Conversion
functions are not built yet. -/
structure Added (graph : ModelGraph) (index next : TypeIndex)
    (added : List (ModelPath × ObjectType)) : Prop where
  objects_eq : next.objects = index.objects ++ added
  byName_eq : next.byName = putNames index.byName added
  fromWire_eq : next.fromWire = index.fromWire
  toWire_eq : next.toWire = index.toWire
  declares : ∀ entry ∈ added, graph.Declares entry.1 entry.2
  grown : index.scope.Grown next.scope (claimants added)
  enums_eq : next.enums = (added.flatMap fun entry => entry.2.enumTags).foldl
    (fun enums tag => enums.add tag.1) index.enums

namespace Added

variable {graph : ModelGraph} {index middle next : TypeIndex}
  {first second : List (ModelPath × ObjectType)}

theorem refl (graph : ModelGraph) (index : TypeIndex) : index.Added graph index [] :=
  ⟨by simp, rfl, rfl, rfl, by simp, Scope.Grown.refl _, rfl⟩

theorem trans (hfirst : Added graph index middle first) (hsecond : Added graph middle next second) :
    Added graph index next (first ++ second) := by
  refine ⟨?_, ?_, ?_, ?_, ?_, ?_, ?_⟩
  · rw [hsecond.objects_eq, hfirst.objects_eq, List.append_assoc]
  · rw [hsecond.byName_eq, hfirst.byName_eq, putNames, putNames, putNames, List.foldl_append]
  · rw [hsecond.fromWire_eq, hfirst.fromWire_eq]
  · rw [hsecond.toWire_eq, hfirst.toWire_eq]
  · intro entry hentry
    rcases List.mem_append.mp hentry with hin | hin
    · exact hfirst.declares entry hin
    · exact hsecond.declares entry hin
  · rw [claimants, List.flatMap_append]
    exact hfirst.grown.trans hsecond.grown
  · rw [List.flatMap_append, List.foldl_append, hsecond.enums_eq, hfirst.enums_eq]

theorem paths_eq (h : Added graph index next first) :
    next.paths = index.paths ++ first.map Prod.fst := by
  rw [paths, h.objects_eq, List.map_append]
  rfl

end Added

theorem mem_paths_iff {index : TypeIndex} {path : ModelPath} :
    path ∈ index.paths ↔ index.contains path = true := by
  simp [paths, contains]

theorem mem_objects_of_object? {index : TypeIndex} {path : ModelPath} {object : ObjectType}
    (h : index.object? path = some object) : (path, object) ∈ index.objects := by
  obtain ⟨before, after, hobjects, _⟩ := List.lookup_eq_some_iff.mp h
  rw [hobjects]
  exact List.mem_append_right _ List.mem_cons_self

theorem exists_object_iff {index : TypeIndex} {path : ModelPath} :
    (∃ object, index.object? path = some object) ↔ path ∈ index.paths := by
  rw [← Option.isSome_iff_exists, object?, List.lookup_isSome_iff, paths, List.mem_map]
  simp only [beq_iff_eq, @eq_comm _ path]

theorem declare_ok {graph : ModelGraph} {path : ModelPath} {index next : TypeIndex}
    {object : ObjectType} (h : declare graph path index = .ok (next, object)) :
    index.Added graph next [(path, object)] := by
  rw [declare, bind_eq_ok_iff] at h
  obtain ⟨model, hmodel, h⟩ := h
  obtain ⟨⟨scope, object'⟩, hdeclared, h⟩ := bind_eq_ok_iff.mp h
  cases pure_eq_ok_iff.mp h
  obtain ⟨hvalid, hdeclares, hchecked, hgrown, henums⟩ := Scope.declareModel_ok hdeclared
  refine ⟨rfl, rfl, rfl, rfl, ?_, ?_, ?_⟩
  · intro entry hentry
    cases List.mem_singleton.mp hentry
    exact ⟨⟨model, ModelGraph.require_eq_ok_iff.mp hmodel, hdeclares⟩, hvalid, hchecked⟩
  · simpa [claimants] using hgrown
  · simpa [enums] using henums

theorem exists_declare {graph : ModelGraph} {owns : String → String → Prop}
    (hsingle : SingleOwners owns) {index : TypeIndex} (hwithin : index.scope.Within owns)
    {path : ModelPath} (hadmits : graph.Admits owns path) :
    ∃ next object, declare graph path index = .ok (next, object) := by
  obtain ⟨model, hmodel, hclass⟩ := hadmits.model
  have htags : ∀ {field desc}, field ∈ model.fields → field.ty.classify = .ok desc →
      ∀ tag ∈ desc.enumTags, tag ∈ graph.enumTags path := by
    intro field desc hfield hdesc tag htag
    rw [ModelGraph.enumTags, ModelGraph.descriptors_of_get? hmodel]
    exact List.mem_flatMap.mpr ⟨desc, ModelDef.mem_descriptors hfield hdesc, htag⟩
  have hfunctions : ∀ dir, owns (Claimant.function dir path).name
      (Claimant.function dir path).owner := by
    intro dir
    refine hadmits.owned _ ?_
    cases dir <;> simp [ModelGraph.claimants, ModelPath.claimants]
  obtain ⟨⟨scope, object⟩, hdeclared⟩ := Scope.exists_declareModel hsingle hwithin hadmits.valid
    (hadmits.owned (.model path) (by simp [ModelGraph.claimants, ModelPath.claimants])) hfunctions
    fun field hfield => by
      obtain ⟨desc, hdesc⟩ := hclass field hfield
      refine ⟨desc, hdesc, fun tag htag => ?_⟩
      have hmem := htags hfield hdesc tag htag
      exact ⟨hadmits.checked tag hmem,
        hadmits.owned (.enum tag.1.name) (path.enum_mem_claimants hmem)⟩
  refine ⟨{ index with
    objects := index.objects ++ [(path, object)],
    byName := putEntry object.name path index.byName, scope }, object, ?_⟩
  rw [declare, bind_eq_ok_iff]
  exact ⟨model, ModelGraph.require_eq_ok_iff.mpr hmodel,
    bind_eq_ok_iff.mpr ⟨(scope, object), hdeclared, rfl⟩⟩

/-- A traversal adds the models that it meets, in depth-first preorder. -/
theorem visit_ok {graph : ModelGraph} {pending : List ModelPath} {index next : TypeIndex}
    (h : visit graph pending index = .ok next) :
    ∃ added, Added graph index next added ∧
      Preorder graph.references index.paths pending (added.map Prod.fst) := by
  fun_induction visit graph pending index with
  | case1 index =>
      cases h
      exact ⟨[], Added.refl graph next, .done _⟩
  | case2 path pending index hcontains ih =>
      obtain ⟨added, hadded, horder⟩ := ih h
      exact ⟨added, hadded, .skip (mem_paths_iff.mpr hcontains) horder⟩
  | case3 => cases h
  | case4 path pending index hnew middle object hdeclare ih =>
      obtain ⟨added, hadded, horder⟩ := ih h
      have hhead := declare_ok hdeclare
      have hreferences : object.references = graph.references path :=
        (hhead.declares _ List.mem_cons_self).references_eq.symm
      rw [hhead.paths_eq, hreferences] at horder
      -- the references of the new model come first among the pending paths
      obtain ⟨below, after, hbelow, hafter, hsplit⟩ := horder.split
      refine ⟨(path, object) :: added, hhead.trans hadded, ?_⟩
      rw [List.map_cons, hsplit]
      exact .visit (fun hmem => hnew (mem_paths_iff.mp hmem)) hbelow hafter

/-- A traversal whose reachable models can all be declared succeeds. -/
theorem exists_visit {graph : ModelGraph} {owns : String → String → Prop}
    (hsingle : SingleOwners owns) {pending : List ModelPath} {index : TypeIndex}
    (hwithin : index.scope.Within owns)
    (hadmits : ∀ path, Reachable graph.references pending path → graph.Admits owns path) :
    ∃ next, visit graph pending index = .ok next := by
  fun_induction visit graph pending index with
  | case1 index => exact ⟨index, rfl⟩
  | case2 path pending index _ ih =>
      refine ih hwithin fun other hother => hadmits other ?_
      obtain ⟨root, hroot, hpath⟩ := hother
      exact ⟨root, List.mem_cons_of_mem _ hroot, hpath⟩
  | case3 path pending index _ fault hdeclare =>
      obtain ⟨next, object, hok⟩ := exists_declare hsingle hwithin
        (hadmits path (.root List.mem_cons_self))
      rw [hok] at hdeclare
      cases hdeclare
  | case4 path pending index _ middle object hdeclare ih =>
      have hhead := declare_ok hdeclare
      have hreferences : object.references = graph.references path :=
        (hhead.declares _ List.mem_cons_self).references_eq.symm
      have hadmitsPath := hadmits path (.root List.mem_cons_self)
      refine ih ?_ ?_
      · refine hhead.grown.within hwithin fun claimant hclaimant => hadmitsPath.owned claimant ?_
        rw [ModelGraph.claimants, (hhead.declares _ List.mem_cons_self).enumTags_eq]
        simpa [claimants] using hclaimant
      · rintro other ⟨root, hroot, hpath⟩
        rw [hreferences] at hroot
        refine hadmits other ?_
        rcases List.mem_append.mp hroot with hbelow | hafter
        · exact ⟨path, List.mem_cons_self, .head hbelow hpath⟩
        · exact ⟨root, List.mem_cons_of_mem _ hafter, hpath⟩

/-- The traversal up to the next declaration, which is left to `rest`. -/
def visitUntil (graph : ModelGraph) (rest : List ModelPath → TypeIndex → Gen TypeIndex) :
    List ModelPath → TypeIndex → Gen TypeIndex
  | [], index => .ok index
  | path :: pending, index =>
      if index.contains path then
        visitUntil graph rest pending index
      else
        match declare graph path index with
        | .error fault => .error fault
        | .ok (next, object) => rest (object.references ++ pending) next

/-- The traversal by recursion on a bound of the declarations that are left. -/
def visitWithin (graph : ModelGraph) : Nat → List ModelPath → TypeIndex → Gen TypeIndex
  | 0 => visitUntil graph fun _ index => .ok index
  | bound + 1 => visitUntil graph (visitWithin graph bound)

theorem visit_eq_of_undeclared_le {graph : ModelGraph} {pending : List ModelPath}
    {index : TypeIndex} {bound : Nat} (hbound : undeclared graph index ≤ bound) :
    visit graph pending index = visitWithin graph bound pending index := by
  fun_induction visit graph pending index generalizing bound with
  | case1 index => cases bound <;> rfl
  | case2 path pending index hcontains ih =>
      rw [ih hbound]
      cases bound <;> simp [visitWithin, visitUntil, hcontains]
  | case3 path pending index hnew fault hdeclare =>
      cases bound <;> simp [visitWithin, visitUntil, hnew, hdeclare]
  | case4 path pending index hnew next object hdeclare ih =>
      have hlt := undeclared_lt_of_declare (by simpa using hnew) hdeclare
      cases bound with
      | zero => omega
      | succ bound =>
          rw [ih (Nat.le_of_lt_succ (Nat.lt_of_lt_of_le hlt hbound))]
          simp [visitWithin, visitUntil, hnew, hdeclare]

/-- The traversal in a form that evaluates. -/
theorem visit_eq_visitWithin :
    visit = fun graph pending index =>
      visitWithin graph (undeclared graph index) pending index := by
  funext graph pending index
  exact visit_eq_of_undeclared_le (Nat.le_refl _)

end TypeIndex

end SchemaWire
