import SchemaWire.Proofs.Index.Isolation
import SchemaWire.Proofs.Naming.Module

/-!
Predefined types and the names of declarations. The globals have owners from the start, so that no
declaration hides one of them. The names of the predefined types are neither reserved words nor
globals, and nothing keeps a model, an enum or a wrapper from taking one. The main statement says
exactly when a generated module leaves all of them alone: when no reachable model and no enum in it
asks for a predefined type, and no route for one of these names or for `eval` or `arguments`.
-/
namespace SchemaWire

open TypeScript (Ty)

namespace TypeScript

/-- Names of predefined types and values. -/
def predefinedNames : List String :=
  ["string", "number", "boolean", "any", "unknown", "never", "undefined"]

/-- Names that no function of a module can have. -/
def restrictedNames : List String :=
  ["eval", "arguments"]

theorem lower_of_mem_predefined {name : String} (h : name ∈ predefinedNames ++ restrictedNames) :
    ∀ c ∈ name.toList, c.isUpper = false := by
  have hall : ∀ word ∈ predefinedNames ++ restrictedNames,
      word.toList.all (fun c => !c.isUpper) = true := by decide
  intro c hc
  have hnot := List.all_eq_true.mp (hall name h) c hc
  simpa using hnot

theorem not_mem_predefined_append {suffix : String} (hupper : ∃ c ∈ suffix.toList, c.isUpper = true)
    (before : String) : before ++ suffix ∉ predefinedNames ++ restrictedNames := by
  intro hmem
  obtain ⟨c, hc, hcapital⟩ := hupper
  have hlower := lower_of_mem_predefined hmem c (by simp [hc])
  exact Bool.false_ne_true (hlower.symm.trans hcapital)

/-- A valid name under which a reference reads like a predefined type is the name of one. -/
theorem mem_predefined_of_print_eq {name : String} (hvalid : isIdentifier name = true)
    {kind : PrimitiveTy} (h : (Ty.named name).print = (Ty.primitive kind).print) :
    name ∈ predefinedNames := by
  change name = kind.print at h
  subst h
  cases kind with
  | null => cases hvalid
  | _ => decide

end TypeScript

open TypeScript (predefinedNames restrictedNames)

theorem Direction.functionName_not_mem_predefined (dir : Direction) (typeName : String) :
    dir.functionName typeName ∉ predefinedNames ++ restrictedNames := by
  cases dir with
  | fromWire => exact TypeScript.not_mem_predefined_append ⟨'F', by decide, rfl⟩ _
  | toWire => exact TypeScript.not_mem_predefined_append ⟨'W', by decide, rfl⟩ _

/-- The form of a route has no predefined name. -/
theorem RouteDef.declaredNames_avoid_iff (route : RouteDef) :
    (∀ name ∈ route.declaredNames, name ∉ predefinedNames) ↔ route.name ∉ predefinedNames := by
  have hform : route.formName ∉ predefinedNames := fun hmem =>
    TypeScript.not_mem_predefined_append ⟨'F', by decide, rfl⟩ _ (List.mem_append_left _ hmem)
  unfold declaredNames
  split <;> simp [hform]

/-- What the index of a generation declares: the models reachable in the graph, and those of a
validation error. -/
theorem indexFor_declares {graph : ModelGraph} {roots : List ModelPath} {routes : List RouteDef}
    {index : TypeIndex} (h : indexFor graph roots routes = .ok index) :
    (∀ entry ∈ index.objects, graph.Declares entry.1 entry.2 ∧
        Reachable graph.references (roots ++ routes.flatMap RouteDef.models) entry.1 ∨
      ValidationModels.graph.Declares entry.1 entry.2) ∧
    ∀ path, Reachable graph.references (roots ++ routes.flatMap RouteDef.models) path →
      ∃ object, (path, object) ∈ index.objects ∧ graph.Declares path object := by
  obtain ⟨registered, hregistered, h⟩ := bind_eq_ok_iff.mp h
  obtain ⟨_, hcovers⟩ := TypeIndex.register_ok hregistered
  have hreached : ∀ entry ∈ registered.objects, graph.Declares entry.1 entry.2 ∧
      Reachable graph.references (roots ++ routes.flatMap RouteDef.models) entry.1 := by
    intro entry hentry
    refine ⟨hcovers.declares entry hentry, ?_⟩
    exact (hcovers.order.mem_iff_reachable _ |>.mp (List.mem_map_of_mem hentry)).mono
      fun root hroot => mem_withRouteModels_iff.mp hroot
  have hdeclared : ∀ path,
      Reachable graph.references (roots ++ routes.flatMap RouteDef.models) path →
        ∃ object, (path, object) ∈ registered.objects ∧ graph.Declares path object := by
    intro path hpath
    have hmem := (hcovers.order.mem_iff_reachable path).mpr (hpath.mono fun root hroot =>
      mem_withRouteModels_iff.mpr hroot)
    obtain ⟨⟨_, object⟩, hentry, rfl⟩ := List.mem_map.mp hmem
    exact ⟨object, hentry, hcovers.declares _ hentry⟩
  split at h
  · cases pure_eq_ok_iff.mp h
    exact ⟨fun entry hentry => Or.inl (hreached entry hentry), hdeclared⟩
  · obtain ⟨visited, added, _, _, hadded, _, _, _, rfl⟩ := TypeIndex.addRoot_ok h
    have hobjects : visited.objects = registered.objects ++ added := hadded.objects_eq
    constructor
    · intro entry hentry
      change entry ∈ visited.objects at hentry
      rw [hobjects] at hentry
      rcases List.mem_append.mp hentry with hold | hnew
      · exact Or.inl (hreached entry hold)
      · exact Or.inr (hadded.declares entry hnew)
    · intro path hpath
      obtain ⟨object, hentry, hdeclares⟩ := hdeclared path hpath
      refine ⟨object, ?_, hdeclares⟩
      change (path, object) ∈ visited.objects
      rw [hobjects]
      exact List.mem_append_left _ hentry

/-- The models of a validation error take no predefined name and have no enums. -/
theorem ValidationModels.avoids_predefined {path : ModelPath} {object : ObjectType}
    (h : graph.Declares path object) :
    path.shortName ∉ predefinedNames ∧ object.enumTags = [] := by
  obtain ⟨model, hmodel, _⟩ := h.model
  have hpath : path ∈ [error, response] := ModelGraph.mem_paths_of_get? hmodel
  rw [← h.enumTags_eq]
  simp only [List.mem_cons, List.not_mem_nil, or_false] at hpath
  rcases hpath with rfl | rfl
  · exact ⟨by decide +kernel, by decide +kernel⟩
  · exact ⟨by decide +kernel, by decide +kernel⟩

namespace TypeIndex

/-- The declarations of an index take no predefined name if its models and their enums do not. -/
theorem Sound.declarations_avoid_iff {index : TypeIndex} (h : index.Sound) :
    (∀ claimant ∈ index.declarations, claimant.name ∉ predefinedNames) ↔
      ∀ entry ∈ index.objects, entry.1.shortName ∉ predefinedNames ∧
        ∀ tag ∈ entry.2.enumTags, tag.1.name ∉ predefinedNames := by
  constructor
  · intro havoid entry hentry
    have hmodel : .model entry.1 ∈ index.declarations := by
      simp only [declarations, List.mem_append, List.mem_map]
      exact Or.inl (Or.inr ⟨entry.1, List.mem_map_of_mem hentry, rfl⟩)
    refine ⟨havoid _ hmodel, fun tag htag => havoid (.enum tag.1.name) ?_⟩
    have hname : tag.1.name ∈ index.enums.names := by
      rw [h.enums_eq]
      exact EnumRegistry.mem_names_foldl.mpr
        (Or.inr ⟨tag, List.mem_flatMap.mpr ⟨entry, hentry, htag⟩, rfl⟩)
    simp only [declarations, List.mem_append, List.mem_map]
    exact Or.inl (Or.inl ⟨_, hname, rfl⟩)
  · intro havoid claimant hclaimant
    obtain ⟨entry, hentry, hin⟩ :=
      List.mem_flatMap.mp (h.mem_claimants_of_mem_declarations claimant hclaimant)
    obtain ⟨hmodel, htags⟩ := havoid entry hentry
    have hfunction : ∀ dir, (Claimant.function dir entry.1).name ∉ predefinedNames :=
      fun dir hmem =>
        dir.functionName_not_mem_predefined entry.1.shortName (List.mem_append_left _ hmem)
    simp only [ModelPath.claimants, List.mem_cons, List.mem_map] at hin
    rcases hin with rfl | rfl | rfl | ⟨tag, htag, rfl⟩
    · exact hmodel
    · exact hfunction .fromWire
    · exact hfunction .toWire
    · exact htags tag htag

/-- The functions of a module are the conversion functions of the index and the wrappers. -/
theorem functionNames_eq {index : TypeIndex} {routes : List RouteDef}
    {module : TypeScript.Module} (hsound : index.Sound) (h : index.module routes = .ok module) :
    module.functions.flatMap TypeScript.Declaration.declaredNames =
      (index.paths.map fun path => Direction.fromWire.functionName path.shortName) ++
        (index.paths.map fun path => Direction.toWire.functionName path.shortName) ++
        routes.map RouteDef.name := by
  obtain ⟨_, wrappers, _, hwrappers, _, _, hfunctions⟩ := module_parts h
  rw [← hsound.functionNames_eq hsound.fromWire, ← hsound.functionNames_eq hsound.toWire,
    ← (RouteDef.wrappers_ok hwrappers).2, hfunctions]
  simp [TypeScript.Declaration.declaredNames, List.flatMap_map, ← List.map_eq_flatMap]

/-- Apart from the wrappers, only models and enums can take a predefined name. -/
theorem declaredNames_avoid_iff {index : TypeIndex} {routes : List RouteDef}
    {module : TypeScript.Module} (hsound : index.Sound) (h : index.module routes = .ok module) :
    (∀ name ∈ module.declaredNames, name ∉ predefinedNames) ↔
      (∀ entry ∈ index.objects, entry.1.shortName ∉ predefinedNames ∧
        ∀ tag ∈ entry.2.enumTags, tag.1.name ∉ predefinedNames) ∧
      ∀ route ∈ routes, route.name ∉ predefinedNames := by
  obtain ⟨helpers, _, hhelpers, hperm, _, _⟩ := module_ok hsound h
  have hhelper : ∀ name ∈ HelperName.all, name ∉ predefinedNames := by decide
  have hroutes : (∀ name ∈ routes.flatMap RouteDef.declaredNames, name ∉ predefinedNames) ↔
      ∀ route ∈ routes, route.name ∉ predefinedNames := by
    rw [List.forall_mem_flatMap]
    exact forall₂_congr fun route _ => route.declaredNames_avoid_iff
  have hclaimants : (∀ name ∈ index.declarations.map Claimant.name, name ∉ predefinedNames) ↔
      ∀ claimant ∈ index.declarations, claimant.name ∉ predefinedNames := List.forall_mem_map
  rw [← hsound.declarations_avoid_iff, ← hroutes, ← hclaimants, ← List.forall_mem_append]
  constructor
  · intro hdeclared name hname
    exact hdeclared name (hperm.mem_iff.mpr (List.mem_append_right _ hname))
  · intro hothers name hname
    rcases List.mem_append.mp (hperm.mem_iff.mp hname) with hin | hin
    · exact hhelper name (hhelpers name hin)
    · exact hothers name hin

/-- Only wrappers can take a restricted name for a function. -/
theorem functionNames_avoid_iff {index : TypeIndex} {routes : List RouteDef}
    {module : TypeScript.Module} (hsound : index.Sound) (h : index.module routes = .ok module) :
    (∀ name ∈ module.functions.flatMap TypeScript.Declaration.declaredNames,
        name ∉ restrictedNames) ↔
      ∀ route ∈ routes, route.name ∉ restrictedNames := by
  have hwire : ∀ dir path,
      Direction.functionName (ModelPath.shortName path) dir ∉ restrictedNames :=
    fun dir path hmem => dir.functionName_not_mem_predefined _ (List.mem_append_right _ hmem)
  rw [functionNames_eq hsound h]
  simp only [List.forall_mem_append, List.forall_mem_map]
  exact ⟨And.right, fun hroutes => ⟨⟨fun path _ => hwire .fromWire path,
    fun path _ => hwire .toWire path⟩, hroutes⟩⟩

/-- The declarations of a module leave alone what is predefined. -/
structure KeepsPredefined (index : TypeIndex) (module : TypeScript.Module) : Prop where
  declared : ∀ name ∈ module.declaredNames, name ∉ predefinedNames
  functions : ∀ name ∈ module.functions.flatMap TypeScript.Declaration.declaredNames,
    name ∉ restrictedNames
  references : ∀ path ∈ index.paths, ∀ kind,
    (Ty.named path.shortName).print ≠ (Ty.primitive kind).print

theorem keepsPredefined_iff {index : TypeIndex} {routes : List RouteDef}
    {module : TypeScript.Module} (hsound : index.Sound) (h : index.module routes = .ok module) :
    index.KeepsPredefined module ↔
      (∀ entry ∈ index.objects, entry.1.shortName ∉ predefinedNames ∧
        ∀ tag ∈ entry.2.enumTags, tag.1.name ∉ predefinedNames) ∧
      ∀ route ∈ routes, route.name ∉ predefinedNames ++ restrictedNames := by
  have hroutes : (∀ route ∈ routes, route.name ∉ predefinedNames ++ restrictedNames) ↔
      (∀ route ∈ routes, route.name ∉ predefinedNames) ∧
        ∀ route ∈ routes, route.name ∉ restrictedNames := by
    simp only [List.mem_append, not_or, forall_and]
  rw [hroutes, ← and_assoc, ← declaredNames_avoid_iff hsound h, ← functionNames_avoid_iff hsound h]
  constructor
  · exact fun hkeeps => ⟨hkeeps.declared, hkeeps.functions⟩
  · rintro ⟨hdeclared, hfunctions⟩
    refine ⟨hdeclared, hfunctions, fun path hpath kind hprint => ?_⟩
    obtain ⟨entry, hentry, rfl⟩ := List.mem_map.mp hpath
    have hname := TypeScript.mem_predefined_of_print_eq (hsound.valid entry hentry) hprint
    exact (((declaredNames_avoid_iff hsound h).mp hdeclared).1 entry hentry).1 hname

/-- No declaration of a module hides a global. -/
theorem not_mem_globalNames {index : TypeIndex} {routes : List RouteDef}
    {module : TypeScript.Module} (hsound : index.Sound) (h : index.module routes = .ok module) :
    ∀ name ∈ module.declaredNames, name ∉ globalNames := by
  obtain ⟨helpers, _, hhelpers, hperm, _, hcheck⟩ := module_ok hsound h
  have hhelper : ∀ name ∈ HelperName.all, name ∉ globalNames := by decide
  have hreserved : ∀ name ∈ globalNames, name ∈ reservedOwners.map Prod.fst := by decide
  intro name hname hglobal
  rw [hperm.mem_iff, List.mem_append, List.mem_append, List.mem_map] at hname
  rcases hname with hin | ⟨claimant, hclaimant, rfl⟩ | hin
  · exact hhelper name (hhelpers name hin) hglobal
  · have hmem := hsound.mem_claimants_of_mem_declarations claimant hclaimant
    exact hsound.not_reserved hmem (hsound.isIdentifier_of_mem_claimants claimant hmem)
      (hreserved _ hglobal)
  · have howner := ((RouteDef.checkNames_ok hcheck).2 name hin).1
    exact hsound.owner?_ne_none (Or.inl (hreserved name hglobal)) howner

end TypeIndex

/-- A generated module declares no global. It leaves the predefined types and the restricted names
alone exactly if no model that is reachable and no enum in it goes by a predefined name, and no
route by a predefined or restricted one. -/
theorem generate_keepsPredefined_iff {graph : ModelGraph} {roots : List ModelPath}
    {routes : List RouteDef} {generated : Generated}
    (h : generate graph roots routes = .ok generated) :
    ∃ index module, indexFor graph roots routes = .ok index ∧
      index.module routes = .ok module ∧ generated.code = module.print ∧
      (∀ name ∈ module.declaredNames, name ∉ globalNames) ∧
      (index.KeepsPredefined module ↔
        (∀ path, Reachable graph.references (roots ++ routes.flatMap RouteDef.models) path →
          path.shortName ∉ predefinedNames ∧
            ∀ tag ∈ graph.enumTags path, tag.1.name ∉ predefinedNames) ∧
        ∀ route ∈ routes, route.name ∉ predefinedNames ++ restrictedNames) := by
  obtain ⟨index, module, hindex, hmodule, rfl⟩ := generate_eq_ok_iff.mp h
  have hsound := sound_indexFor hindex
  obtain ⟨hdeclares, hreachable⟩ := indexFor_declares hindex
  refine ⟨index, module, hindex, hmodule, rfl, TypeIndex.not_mem_globalNames hsound hmodule, ?_⟩
  rw [TypeIndex.keepsPredefined_iff hsound hmodule]
  refine and_congr_left fun _ => ⟨fun havoid path hpath => ?_, fun havoid entry hentry => ?_⟩
  · obtain ⟨object, hentry, hobject⟩ := hreachable path hpath
    have hpair := havoid (path, object) hentry
    rwa [← hobject.enumTags_eq] at hpair
  · rcases hdeclares entry hentry with ⟨hobject, hpath⟩ | hobject
    · have hmodel := havoid entry.1 hpath
      rwa [hobject.enumTags_eq] at hmodel
    · obtain ⟨hname, htags⟩ := ValidationModels.avoids_predefined hobject
      exact ⟨hname, by simp [htags]⟩

/-- A model that goes by the name of a predefined type. -/
def stringGraph : ModelGraph :=
  .ofList [(⟨"app.string"⟩, ⟨[⟨"id", .primitive .str, none⟩]⟩)]

/-- It is declared like any other, and the type of its own field reads like the model. -/
theorem generate_keepsPredefined_iff_string :
    ∃ generated index module, generate stringGraph [⟨"app.string"⟩] [] = .ok generated ∧
      index.module [] = .ok module ∧ generated.code = TypeScript.Module.print module ∧
      ¬ TypeIndex.KeepsPredefined index module := by
  have hok : (generate stringGraph [⟨"app.string"⟩] []).toOption.isSome = true := by
    have hroots : withRouteModels [⟨"app.string"⟩] [] = [⟨"app.string"⟩] := rfl
    simp only [generate, indexFor, hroots, TypeIndex.register, TypeIndex.addRoots,
      TypeIndex.addRoot, TypeIndex.visit_eq_visitWithin]
    decide +kernel
  obtain ⟨generated, hgenerated⟩ := exists_ok_of_isSome hok
  obtain ⟨index, module, _, hmodule, hcode, _, hkeeps⟩ := generate_keepsPredefined_iff hgenerated
  refine ⟨generated, index, module, hgenerated, hmodule, hcode, fun h => ?_⟩
  have hname := (hkeeps.mp h).1 ⟨"app.string"⟩ (.root List.mem_cons_self)
  exact hname.1 (by decide +kernel)

end SchemaWire
