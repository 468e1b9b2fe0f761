import SchemaWire.Proofs.Descriptor.Part
import SchemaWire.Proofs.Index.Enums
import SchemaWire.Proofs.Index.Registrable

/-!
Histories of an index. Between roots, which may come from graphs that disagree about a model, names
may be claimed for anything else. The main statement is that after any such history the parts of
the index are in step: they list the same models, each under a name of its own, everything that a
declared field mentions is declared, and its unions can be told apart.
-/
namespace SchemaWire.TypeIndex

/-- What can be done to an index. -/
inductive Operation where
  | addRoot (graph : ModelGraph) (root : ModelPath)
  | claim (name owner : String)

/-- The index after an operation. A refused claim leaves the index as it is; there is no index
after a root that cannot be added. -/
def perform (index : TypeIndex) : Operation → Gen TypeIndex
  | .addRoot graph root => addRoot graph root index
  | .claim name owner =>
      match index.claim name owner with
      | .ok next => .ok next
      | .error _ => .ok index

/-- The index after several operations in order. -/
def performAll (index : TypeIndex) : List Operation → Gen TypeIndex
  | [] => .ok index
  | operation :: rest => do
      let next ← index.perform operation
      next.performAll rest

/-- The parts of an index list the same models and agree about them. -/
structure InStep (index : TypeIndex) : Prop where
  nodup : index.paths.Nodup
  fromWire_paths : index.fromWire.map Prod.fst = index.paths
  toWire_paths : index.toWire.map Prod.fst = index.paths
  name_eq : ∀ path object, index.object? path = some object → object.name = path.shortName
  nodup_names : (index.paths.map ModelPath.shortName).Nodup
  objectByName?_iff : ∀ name object, index.objectByName? name = some object ↔
    ∃ path, index.object? path = some object ∧ object.name = name
  model_owner : ∀ path ∈ index.paths,
    index.scope.owner? path.shortName = some (Claimant.model path).owner
  function_owner : ∀ path ∈ index.paths, ∀ dir, ∃ function,
    index.function? dir path = some function ∧
      index.scope.owner? function.name = some (Claimant.function dir path).owner
  enum_owner : ∀ name ∈ index.enums.names,
    index.scope.owner? name = some (Claimant.enum name).owner
  closed : ∀ path object, index.object? path = some object → ∀ field ∈ object.fields,
    ∀ other, field.descriptor.Names other → other ∈ index.paths
  discriminable : ∀ path object, index.object? path = some object → ∀ field ∈ object.fields,
    ∀ variants nullable, (Descriptor.unionOfModels variants nullable).Part field.descriptor →
      ∃ found, index.discriminant variants = .ok found

namespace Consistent

variable {index next : TypeIndex}

/-- Claims change the owners of names only. -/
theorem claim {name owner : String} (hindex : index.Consistent)
    (h : index.claim name owner = .ok next) : next.Consistent := by
  obtain ⟨scope, hscope, h⟩ := bind_eq_ok_iff.mp h
  cases pure_eq_ok_iff.mp h
  refine ⟨hindex.nodup, hindex.named, hindex.valid, hindex.checked, hindex.wellFormed,
    hindex.rendered, hindex.closed, hindex.owned.claim hscope, hindex.byName_eq, ?_, ?_, ?_⟩
  · exact (Scope.enums_claim hscope).trans hindex.enums_eq
  · exact hindex.fromWire.extend fun _ _ hobject => hobject
  · exact hindex.toWire.extend fun _ _ hobject => hobject

/-- Every operation keeps an index consistent. -/
theorem perform {operation : Operation} (hindex : index.Consistent)
    (h : index.perform operation = .ok next) : next.Consistent := by
  cases operation with
  | addRoot graph root => exact hindex.addRoot h
  | claim name owner =>
      rw [TypeIndex.perform] at h
      split at h
      · rename_i claimed hclaim
        cases h
        exact hindex.claim hclaim
      · cases h
        exact hindex

theorem performAll {operations : List Operation} (hindex : index.Consistent)
    (h : index.performAll operations = .ok next) : next.Consistent := by
  induction operations generalizing index with
  | nil =>
      cases h
      exact hindex
  | cons operation rest ih =>
      obtain ⟨middle, hmiddle, hrest⟩ := bind_eq_ok_iff.mp h
      exact ih (hindex.perform hmiddle) hrest

theorem name_eq (hindex : index.Consistent) {path : ModelPath} {object : ObjectType}
    (hobject : index.object? path = some object) : object.name = path.shortName :=
  hindex.named _ (mem_objects_of_object? hobject)

theorem names_eq (hindex : index.Consistent) :
    index.byName.map Prod.fst = index.paths.map ModelPath.shortName := by
  rw [hindex.byName_eq, paths, List.map_map, List.map_map]
  exact List.map_congr_left fun entry hentry => hindex.named entry hentry

theorem nodup_shortNames (hindex : index.Consistent) :
    (index.paths.map ModelPath.shortName).Nodup := by
  have hnames := nodup_names_of_holds hindex.owned hindex.nodup hindex.named
  rw [← hindex.names_eq, hindex.byName_eq, List.map_map]
  exact hnames

/-- A name leads to the object type that is declared under it. -/
theorem objectByName?_eq_some_iff (hindex : index.Consistent) {name : String}
    {object : ObjectType} :
    index.objectByName? name = some object ↔
      ∃ path, index.object? path = some object ∧ object.name = name := by
  have hkeys : (index.byName.map Prod.fst).Nodup := by
    rw [hindex.names_eq]
    exact hindex.nodup_shortNames
  have hentry : ∀ {path}, (name, path) ∈ index.byName ↔
      ∃ found, index.object? path = some found ∧ found.name = name := by
    intro path
    rw [hindex.byName_eq, List.mem_map]
    constructor
    · rintro ⟨entry, hmem, heq⟩
      cases heq
      exact ⟨entry.2, hindex.object?_eq_some_iff.mpr hmem, rfl⟩
    · rintro ⟨found, hfound, rfl⟩
      exact ⟨(path, found), mem_objects_of_object? hfound, rfl⟩
  rw [objectByName?, Option.bind_eq_bind, Option.bind_eq_some_iff]
  simp only [lookup_eq_some_iff_mem hkeys, hentry]
  constructor
  · rintro ⟨path, ⟨found, hfound, hname⟩, hobject⟩
    cases hfound.symm.trans hobject
    exact ⟨path, hobject, hname⟩
  · rintro ⟨path, hobject, hname⟩
    exact ⟨path, ⟨object, hobject, hname⟩, hobject⟩

theorem owner?_of_mem_claimants (hindex : index.Consistent) {path : ModelPath}
    {object : ObjectType} (hobject : index.object? path = some object) {claimant : Claimant}
    (hmem : claimant ∈ path.claimants object.enumTags) :
    index.scope.owner? claimant.name = some claimant.owner :=
  hindex.owned claimant (mem_claimants_of_object? hobject hmem)

theorem owner?_enum (hindex : index.Consistent) {name : String}
    (hname : name ∈ index.enums.names) :
    index.scope.owner? name = some (Claimant.enum name).owner := by
  rw [hindex.enums_eq] at hname
  rcases EnumRegistry.mem_names_foldl.mp hname with hempty | ⟨tag, htag, rfl⟩
  · cases hempty
  · obtain ⟨entry, hentry, hin⟩ := List.mem_flatMap.mp htag
    have hobject := hindex.object?_eq_some_iff.mpr hentry
    exact hindex.owner?_of_mem_claimants hobject (entry.1.enum_mem_claimants hin)

theorem inStep (hindex : index.Consistent) : index.InStep := by
  have hobject : ∀ path ∈ index.paths, ∃ object, index.object? path = some object :=
    fun path hpath => exists_object_iff.mpr hpath
  refine ⟨hindex.nodup, hindex.fromWire.paths_eq, hindex.toWire.paths_eq,
    fun path object => hindex.name_eq, hindex.nodup_shortNames,
    fun name object => hindex.objectByName?_eq_some_iff, ?_, ?_,
    fun name => hindex.owner?_enum, ?_, ?_⟩
  · intro path hpath
    obtain ⟨object, hobject⟩ := hobject path hpath
    have hmem : .model path ∈ path.claimants object.enumTags := List.mem_cons_self
    exact hindex.owner?_of_mem_claimants hobject hmem
  · intro path hpath dir
    obtain ⟨object, hobject⟩ := hobject path hpath
    obtain ⟨function, hfunction, hbuilt⟩ := hindex.exists_function hpath dir
    obtain ⟨declared, entries, hdeclared, hconverts⟩ := wireFunction_ok hbuilt
    have hname : function.name = (Claimant.function dir path).name := by
      rw [WireFunction.name, hconverts.name_eq, hindex.name_eq hdeclared]
      rfl
    refine ⟨function, hfunction, ?_⟩
    rw [hname]
    refine hindex.owner?_of_mem_claimants hobject ?_
    cases dir <;> simp [ModelPath.claimants]
  · intro path object hobject field hfield other hnames
    have hmem := mem_objects_of_object? hobject
    refine hindex.closed _ hmem other (List.mem_flatMap.mpr ⟨field, hfield, ?_⟩)
    exact (Descriptor.mem_models_iff_names (hindex.wellFormed _ hmem field hfield)).mpr hnames
  · intro path object hobject field hfield variants nullable hpart
    have hwell := hindex.wellFormed _ (mem_objects_of_object? hobject) field hfield
    refine hindex.discriminant hobject hfield ?_
    exact (hpart.mentions_subset hwell).2 List.mem_cons_self

end Consistent

/-- After any history the parts of an index are in step. -/
theorem performAll_inStep {operations : List Operation} {index : TypeIndex}
    (h : empty.performAll operations = .ok index) : index.InStep :=
  (consistent_empty.performAll h).inStep

/-- A graph that knows users in another way than `mutualGraph` does. -/
def adminGraph : ModelGraph :=
  .ofList [
    (⟨"app.User"⟩, ⟨[⟨"team", .model ⟨"app.Team"⟩, none⟩]⟩),
    (⟨"app.Admin"⟩, ⟨[⟨"user", .model ⟨"app.User"⟩, none⟩,
      ⟨"role", .enumTagged "Role" "owner", none⟩]⟩)]

/-- A history with roots of two graphs, a claim that is granted and one that is refused. -/
def adminHistory : List Operation :=
  [.claim "Team" "somebody else", .addRoot mutualGraph ⟨"app.Org"⟩,
    .claim "User" "somebody else", .addRoot adminGraph ⟨"app.Admin"⟩]

theorem performAll_inStep_admin :
    ∃ index, empty.performAll adminHistory = .ok index ∧ index.InStep := by
  have hok : (empty.performAll adminHistory).toOption.isSome = true := by
    simp only [performAll, perform, adminHistory, addRoot, visit_eq_visitWithin]
    decide
  obtain ⟨index, hindex⟩ := exists_ok_of_isSome hok
  exact ⟨index, hindex, performAll_inStep hindex⟩

end SchemaWire.TypeIndex
