import SchemaWire.Proofs.Index.Enums
import SchemaWire.Proofs.Index.Registrable

/-!
The order of the roots. Two lists of the same roots are registered or refused alike. Their indexes
may list the models in different orders, and build the conversion functions at different moments,
but agree on every object type, conversion function, owner and enum: a model is declared as the
graph has it, and a conversion function does not change while more is declared.
-/
namespace SchemaWire

theorem FieldDef.Declares.unique {field : FieldDef} {first second : ObjectField}
    (hfirst : field.Declares first) (hsecond : field.Declares second) : first = second := by
  have hdescriptor : first.descriptor = second.descriptor :=
    Except.ok.inj (hfirst.classified.symm.trans hsecond.classified)
  have hname : first.name = second.name := hfirst.name_eq.trans hsecond.name_eq.symm
  have hty : first.ty = second.ty := by
    rw [hfirst.ty_eq, hsecond.ty_eq, hdescriptor]
  have hdefault : first.default = second.default :=
    hfirst.default_eq.trans hsecond.default_eq.symm
  exact (ObjectField.mk.injEq ..).mpr ⟨hname, hdescriptor, hty, hdefault⟩

/-- A graph leaves no choice in how a model is declared. -/
theorem ModelGraph.Declares.unique {graph : ModelGraph} {path : ModelPath}
    {first second : ObjectType} (hfirst : graph.Declares path first)
    (hsecond : graph.Declares path second) : first = second := by
  obtain ⟨model, hmodel, hdeclares⟩ := hfirst.model
  obtain ⟨source, hsource, hdeclares'⟩ := hsecond.model
  obtain rfl := Option.some.inj (hmodel.symm.trans hsource)
  have hunique : Relator.RightUnique FieldDef.Declares := fun _ _ _ => FieldDef.Declares.unique
  have hfields : first.fields = second.fields :=
    hunique.forall₂ hdeclares.fields hdeclares'.fields
  exact (ObjectType.mk.injEq ..).mpr ⟨hdeclares.name_eq.trans hdeclares'.name_eq.symm,
    hdeclares.path_eq.trans hdeclares'.path_eq.symm, hfields,
    hdeclares.exported.trans hdeclares'.exported.symm⟩

/-- What the claimants of a scope are decides who owns what. -/
theorem Scope.Grown.owner?_eq {scope first second : Scope} {claimants others : List Claimant}
    (hfirst : scope.Grown first claimants) (hsecond : scope.Grown second others)
    (hsame : ∀ claimant, claimant ∈ claimants ↔ claimant ∈ others) (name : String) :
    first.owner? name = second.owner? name := by
  ext text
  simp only [hfirst name text, hsecond name text, hsame]

namespace TypeIndex

/-- The indexes declare the same models in the same way, though perhaps in different orders. -/
structure Agrees (index other : TypeIndex) : Prop where
  mem_paths_iff : ∀ path, path ∈ index.paths ↔ path ∈ other.paths
  object?_eq : ∀ path, index.object? path = other.object? path
  function?_eq : ∀ dir path, index.function? dir path = other.function? dir path
  owner?_eq : ∀ name, index.scope.owner? name = other.scope.owner? name
  enums_eq : index.enums = other.enums

variable {graph : ModelGraph} {roots others : List ModelPath} {index other : TypeIndex}

theorem Covers.mem_paths_iff (hcovers : Covers graph roots index)
    (hcovers' : Covers graph others other) (hroots : ∀ path, path ∈ roots ↔ path ∈ others)
    (path : ModelPath) : path ∈ index.paths ↔ path ∈ other.paths := by
  rw [hcovers.order.mem_iff_reachable, hcovers'.order.mem_iff_reachable]
  exact ⟨fun hpath => hpath.mono fun root => (hroots root).mp,
    fun hpath => hpath.mono fun root => (hroots root).mpr⟩

/-- Indexes of one graph that declare the same models declare them as the same object types. -/
theorem Covers.object?_eq (hcovers : Covers graph roots index)
    (hcovers' : Covers graph others other)
    (hpaths : ∀ path, path ∈ index.paths ↔ path ∈ other.paths)
    (path : ModelPath) : index.object? path = other.object? path := by
  have hpath := hpaths path
  rw [← exists_object_iff, ← exists_object_iff] at hpath
  cases hobject : index.object? path with
  | none =>
      cases hother : other.object? path with
      | none => rfl
      | some object => simp [hobject, hother] at hpath
  | some object =>
      obtain ⟨found, hfound⟩ := hpath.mp ⟨object, hobject⟩
      rw [hfound, (hcovers.object_declares hobject).unique (hcovers'.object_declares hfound)]

namespace Consistent

/-- A model that is not declared has no conversion functions. -/
theorem function?_eq_none (hindex : index.Consistent) {path : ModelPath}
    (hnot : path ∉ index.paths) (dir : Direction) : index.function? dir path = none := by
  have hnone : ∀ {functions : List (ModelPath × WireFunction)},
      functions.map Prod.fst = index.paths → functions.lookup path = none := by
    intro functions hkeys
    cases hlookup : functions.lookup path with
    | none => rfl
    | some function =>
        rw [← hkeys] at hnot
        exact absurd (exists_lookup_iff_mem_keys.mp ⟨function, hlookup⟩) hnot
  cases dir with
  | fromWire => exact hnone hindex.fromWire.paths_eq
  | toWire => exact hnone hindex.toWire.paths_eq

/-- Conversion functions depend on the object types only, not on when they were built. -/
theorem function?_eq (hindex : index.Consistent) (hother : other.Consistent)
    (hobjects : ∀ path, index.object? path = other.object? path) (dir : Direction)
    (path : ModelPath) : index.function? dir path = other.function? dir path := by
  by_cases hpath : path ∈ index.paths
  · have hpath' : path ∈ other.paths := by
      rwa [← exists_object_iff, ← hobjects path, exists_object_iff]
    obtain ⟨function, hfunction, hbuilt⟩ := hindex.exists_function hpath dir
    obtain ⟨function', hfunction', hbuilt'⟩ := hother.exists_function hpath' dir
    have hextends : index.Extends other := fun path object hobject =>
      (hobjects path).symm.trans hobject
    rw [hfunction, hfunction', Except.ok.inj ((hextends.wireFunction hbuilt).symm.trans hbuilt')]
  · have hpath' : path ∉ other.paths := by
      rwa [← exists_object_iff, ← hobjects path, exists_object_iff]
    rw [hindex.function?_eq_none hpath, hother.function?_eq_none hpath']

end Consistent

/-- The same models with the same object types, in whatever order, make the same index. -/
theorem Sound.agrees (hindex : index.Sound) (hother : other.Sound)
    (hpaths : ∀ path, path ∈ index.paths ↔ path ∈ other.paths)
    (hobjects : ∀ path, index.object? path = other.object? path) : index.Agrees other := by
  have hentries : ∀ entry, entry ∈ index.objects ↔ entry ∈ other.objects := by
    intro entry
    rw [← hindex.object?_eq_some_iff, ← hother.object?_eq_some_iff, hobjects entry.1]
  refine ⟨hpaths, hobjects, hindex.function?_eq hother.toConsistent hobjects, ?_, ?_⟩
  · refine hindex.grown.owner?_eq hother.grown fun claimant => ?_
    simp only [claimants, List.mem_flatMap, hentries]
  · rw [hindex.enums_eq, hother.enums_eq]
    refine EnumRegistry.foldl_eq_of_mem_iff (fun tag => ?_) EnumRegistry.empty
    simp only [List.mem_flatMap, hentries]

/-- The order and the repetition of roots make no difference to whether they are registered, nor to
what is declared. -/
theorem register_congr_roots (hroots : ∀ path, path ∈ roots ↔ path ∈ others) :
    ((∃ index, register graph roots = .ok index) ↔
        ∃ other, register graph others = .ok other) ∧
      ∀ index other, register graph roots = .ok index → register graph others = .ok other →
        index.Agrees other := by
  refine ⟨?_, fun index other hindex hother => ?_⟩
  · rw [exists_register_iff_registrable, exists_register_iff_registrable]
    exact ⟨fun h => h.mono fun path => (hroots path).mpr,
      fun h => h.mono fun path => (hroots path).mp⟩
  · obtain ⟨hsound, hcovers⟩ := register_ok hindex
    obtain ⟨hsound', hcovers'⟩ := register_ok hother
    have hpaths := hcovers.mem_paths_iff hcovers' hroots
    exact hsound.agrees hsound' hpaths (hcovers.object?_eq hcovers' hpaths)

/-- From either end of a cycle, and with repetitions, the same models are declared. -/
theorem register_congr_roots_mutual :
    ∃ index other, register mutualGraph [⟨"app.User"⟩, ⟨"app.Org"⟩] = .ok index ∧
      register mutualGraph [⟨"app.Org"⟩, ⟨"app.User"⟩, ⟨"app.Org"⟩] = .ok other ∧
      index.paths ≠ other.paths ∧ index.Agrees other := by
  have hfirst : ((register mutualGraph [⟨"app.User"⟩, ⟨"app.Org"⟩]).toOption.map paths) =
      some [⟨"app.User"⟩, ⟨"app.Org"⟩] := by
    simp only [register, addRoots, addRoot, visit_eq_visitWithin]
    decide
  have hsecond : ((register mutualGraph [⟨"app.Org"⟩, ⟨"app.User"⟩, ⟨"app.Org"⟩]).toOption.map
      paths) = some [⟨"app.Org"⟩, ⟨"app.User"⟩] := by
    simp only [register, addRoots, addRoot, visit_eq_visitWithin]
    decide
  obtain ⟨index, hindex, hpaths⟩ := Option.map_eq_some_iff.mp hfirst
  obtain ⟨other, hother, hpaths'⟩ := Option.map_eq_some_iff.mp hsecond
  have hindex := toOption_eq_some_iff.mp hindex
  have hother := toOption_eq_some_iff.mp hother
  refine ⟨index, other, hindex, hother, ?_, ?_⟩
  · rw [hpaths, hpaths']
    decide
  · exact (register_congr_roots (by simp [or_comm])).2 index other hindex hother

end TypeIndex

end SchemaWire
