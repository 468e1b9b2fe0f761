import SchemaWire.Proofs.Index.Operations
import SchemaWire.Proofs.Index.RootOrder
import SchemaWire.Proofs.Naming.Predefined

/-!
The models of a validation error in a generated module. They are added behind the models of the
roots, by their paths: a model of another path that goes by one of their names is refused, but a
model that the graph has under one of the two paths is kept in their place. The main statement says
when the module declares the built-in models: exactly if the graph defines no model under their
paths that is reachable, or defines it in the same way.
-/
namespace SchemaWire

open TypeScript (Function Module TypeDecl)

/-- The module declares this type, and no other one of its name. -/
def TypeScript.Module.DeclaresType (module : Module) (decl : TypeDecl) : Prop :=
  ∀ other, other ∈ module.types ∧ other.name = decl.name ↔ other = decl

/-- The module declares this function, and no other one of its name. -/
def TypeScript.Module.DeclaresFunction (module : Module) (function : Function) : Prop :=
  ∀ other, .function other ∈ module.functions ∧ other.name = function.name ↔ other = function

namespace TypeIndex

/-- The module declares the object types and the conversion functions of the index, and nothing
else under their names. -/
structure DeclaredIn (index : TypeIndex) (module : Module) : Prop where
  types : ∀ path object, index.object? path = some object → module.DeclaresType object.typeDecl
  functions : ∀ dir path function, index.function? dir path = some function →
    module.DeclaresFunction function.declared

/-- The index declares the models of another one as that one does, and no others under their
names. -/
structure Includes (index other : TypeIndex) : Prop where
  objects : ∀ path ∈ other.paths, index.object? path = other.object? path
  functions : ∀ path ∈ other.paths, ∀ dir, index.function? dir path = other.function? dir path
  alone : ∀ path ∈ index.paths, path.shortName ∈ other.paths.map ModelPath.shortName →
    path ∈ other.paths

variable {index : TypeIndex} {routes : List RouteDef} {module : Module}

namespace Sound

/-- Declarations of the index that go by one name are the same. -/
theorem eq_of_declared_name (hsound : index.Sound) {first second : Claimant}
    (hfirst : first ∈ index.declarations) (hsecond : second ∈ index.declarations)
    (hname : first.name = second.name) : first = second :=
  List.inj_on_of_nodup_map hsound.nodup_names hfirst hsecond hname

theorem model_mem_declarations {path : ModelPath} (hpath : path ∈ index.paths) :
    .model path ∈ index.declarations := by
  simp [declarations, hpath]

theorem function_mem_declarations {path : ModelPath} (hpath : path ∈ index.paths)
    (dir : Direction) : .function dir path ∈ index.declarations := by
  cases dir <;> simp [declarations, hpath]

/-- The conversion functions that the index lists are those of its models. -/
theorem function?_of_mem (hsound : index.Sound) {entry : ModelPath × WireFunction}
    (hentry : entry ∈ index.fromWire ++ index.toWire) :
    ∃ dir, entry.1 ∈ index.paths ∧ index.function? dir entry.1 = some entry.2 := by
  have hbuilt : ∃ dir, entry.1 ∈ index.paths ∧ index.wireFunction dir entry.1 = .ok entry.2 := by
    rcases List.mem_append.mp hentry with hfrom | hto
    · obtain ⟨path, hpath, rfl, hok⟩ := exists_left_of_forall₂ hsound.fromWire entry hfrom
      exact ⟨.fromWire, hpath, hok⟩
    · obtain ⟨path, hpath, rfl, hok⟩ := exists_left_of_forall₂ hsound.toWire entry hto
      exact ⟨.toWire, hpath, hok⟩
  obtain ⟨dir, hpath, hok⟩ := hbuilt
  obtain ⟨function, hfunction, hfound⟩ := hsound.exists_function hpath dir
  rw [← Except.ok.inj (hok.symm.trans hfound)] at hfunction
  exact ⟨dir, hpath, hfunction⟩

theorem mem_of_function? {dir : Direction} {path : ModelPath} {function : WireFunction}
    (hfunction : index.function? dir path = some function) :
    (path, function) ∈ index.fromWire ++ index.toWire := by
  have hlookup : ∀ {functions : List (ModelPath × WireFunction)},
      functions.lookup path = some function → (path, function) ∈ functions := by
    intro functions hfound
    obtain ⟨before, after, rfl, _⟩ := List.lookup_eq_some_iff.mp hfound
    exact List.mem_append_right _ List.mem_cons_self
  cases dir with
  | fromWire => exact List.mem_append_left _ (hlookup hfunction)
  | toWire => exact List.mem_append_right _ (hlookup hfunction)

theorem mem_paths_of_function? (hsound : index.Sound) {dir : Direction} {path : ModelPath}
    {function : WireFunction} (hfunction : index.function? dir path = some function) :
    path ∈ index.paths := by
  by_contra hnot
  rw [hsound.function?_eq_none hnot dir] at hfunction
  cases hfunction

theorem name_of_function? (hsound : index.Sound) {dir : Direction} {path : ModelPath}
    {function : WireFunction} (hfunction : index.function? dir path = some function) :
    function.declared.name = (Claimant.function dir path).name := by
  obtain ⟨found, hfound, hok⟩ :=
    hsound.exists_function (hsound.mem_paths_of_function? hfunction) dir
  obtain rfl := Option.some.inj (hfunction.symm.trans hfound)
  obtain ⟨object, entries, hobject, hconverts⟩ := wireFunction_ok hok
  rw [hconverts.name_eq, hsound.name_eq hobject]
  rfl

/-- Routes declare no name of the index. -/
theorem not_mem_declaredNames (hsound : index.Sound) (hmodule : index.module routes = .ok module)
    {claimant : Claimant} (hclaimant : claimant ∈ index.declarations) :
    claimant.name ∉ routes.flatMap RouteDef.declaredNames := by
  obtain ⟨_, _, _, _, _, hcheck⟩ := module_ok hsound hmodule
  intro hname
  exact hsound.owner?_ne_none (Or.inr (List.mem_map_of_mem hclaimant))
    ((RouteDef.checkNames_ok hcheck).2 _ hname).1

theorem declaresType (hsound : index.Sound) (hmodule : index.module routes = .ok module)
    {path : ModelPath} {object : ObjectType} (hobject : index.object? path = some object) :
    module.DeclaresType object.typeDecl := by
  obtain ⟨forms, wrappers, hforms, hwrappers, _, htypes, _⟩ := module_parts hmodule
  have hmodel := model_mem_declarations (exists_object_iff.mp ⟨object, hobject⟩)
  intro other
  rw [htypes]
  constructor
  · rintro ⟨hmem, hname⟩
    have hname : other.name = (Claimant.model path).name := hname.trans (hsound.name_eq hobject)
    rcases List.mem_append.mp hmem with hmem | hform
    · rcases List.mem_append.mp hmem with henum | hin
      · have hnames : other.name ∈ index.enums.names := by
          rw [← EnumRegistry.map_name_typeDecls]
          exact List.mem_map_of_mem henum
        have henum : .enum other.name ∈ index.declarations := by
          simp [declarations, hnames]
        cases hsound.eq_of_declared_name henum hmodel hname
      · obtain ⟨entry, hentry, rfl⟩ := List.mem_map.mp hin
        have hentryName : (Claimant.model entry.1).name = (Claimant.model path).name :=
          (hsound.named entry hentry).symm.trans hname
        have hsame := Claimant.model.inj (hsound.eq_of_declared_name
          (model_mem_declarations (List.mem_map_of_mem hentry)) hmodel hentryName)
        have hfound := hsound.object?_eq_some_iff.mpr hentry
        rw [hsame] at hfound
        rw [Option.some.inj (hfound.symm.trans hobject)]
    · obtain ⟨form, hin, rfl⟩ := List.mem_map.mp hform
      have hforms := RouteDef.forms_ok hforms
      have hroute : form.name ∈ routes.flatMap RouteDef.declaredNames := by
        rw [(RouteDef.perm_declaredNames routes).mem_iff, ← hforms]
        exact List.mem_append_left _ (List.mem_map_of_mem hin)
      exact absurd (hname ▸ hroute) (hsound.not_mem_declaredNames hmodule hmodel)
  · rintro rfl
    refine ⟨List.mem_append_left _ (List.mem_append_right _ ?_), rfl⟩
    exact List.mem_map.mpr ⟨_, mem_objects_of_object? hobject, rfl⟩

theorem declaresFunction (hsound : index.Sound) (hmodule : index.module routes = .ok module)
    {dir : Direction} {path : ModelPath} {function : WireFunction}
    (hfunction : index.function? dir path = some function) :
    module.DeclaresFunction function.declared := by
  obtain ⟨forms, wrappers, _, hwrappers, _, _, hfunctions⟩ := module_parts hmodule
  have hclaimant := function_mem_declarations (hsound.mem_paths_of_function? hfunction) dir
  have hclaimantName := hsound.name_of_function? hfunction
  intro other
  rw [hfunctions]
  constructor
  · rintro ⟨hmem, hname⟩
    have hname := hname.trans hclaimantName
    rcases List.mem_append.mp hmem with hin | hin
    · obtain ⟨entry, hentry, heq⟩ := List.mem_map.mp hin
      obtain rfl := TypeScript.Declaration.function.inj heq
      obtain ⟨dir', hpath', hfunction'⟩ := hsound.function?_of_mem hentry
      have hsame := hsound.eq_of_declared_name (function_mem_declarations hpath' dir') hclaimant
        ((hsound.name_of_function? hfunction').symm.trans hname)
      obtain ⟨rfl, hpath⟩ := Claimant.function.inj hsame
      rw [hpath] at hfunction'
      rw [Option.some.inj (hfunction'.symm.trans hfunction)]
    · obtain ⟨wrapper, hwrapper, heq⟩ := List.mem_map.mp hin
      obtain rfl := TypeScript.Declaration.function.inj heq
      have hroute : wrapper.name ∈ routes.flatMap RouteDef.declaredNames := by
        rw [(RouteDef.perm_declaredNames routes).mem_iff, ← (RouteDef.wrappers_ok hwrappers).2]
        exact List.mem_append_right _ (List.mem_map_of_mem hwrapper)
      exact absurd (hname ▸ hroute) (hsound.not_mem_declaredNames hmodule hclaimant)
  · rintro rfl
    refine ⟨List.mem_append_left _ ?_, rfl⟩
    exact List.mem_map.mpr ⟨_, mem_of_function? hfunction, rfl⟩

/-- What an index declares stands in the module under names of its own. -/
theorem declaredIn (hsound : index.Sound) (hmodule : index.module routes = .ok module) :
    index.DeclaredIn module :=
  ⟨fun _ _ => hsound.declaresType hmodule, fun _ _ _ => hsound.declaresFunction hmodule⟩

end Sound

namespace Consistent

variable {other : TypeIndex}

/-- Where the object types of another index are found, its functions are found too, and nothing
else goes by one of the names. -/
theorem includes (hindex : index.Consistent) (hother : other.Consistent)
    (hextends : other.Extends index) : index.Includes other := by
  have hobject : ∀ path ∈ other.paths, index.object? path = other.object? path := by
    intro path hpath
    obtain ⟨object, hobject⟩ := exists_object_iff.mpr hpath
    rw [hobject, hextends path object hobject]
  have hpaths : ∀ path ∈ other.paths, path ∈ index.paths := by
    intro path hpath
    obtain ⟨object, hobject⟩ := exists_object_iff.mpr hpath
    exact exists_object_iff.mp ⟨object, hextends path object hobject⟩
  refine ⟨hobject, fun path hpath dir => ?_, fun path hpath hname => ?_⟩
  · obtain ⟨function, hfunction, hbuilt⟩ := hother.exists_function hpath dir
    obtain ⟨found, hfound, hrebuilt⟩ := hindex.exists_function (hpaths path hpath) dir
    rw [hfunction, hfound, Except.ok.inj (hrebuilt.symm.trans (hextends.wireFunction hbuilt))]
  · obtain ⟨namesake, hin, hname⟩ := List.mem_map.mp hname
    rwa [← List.inj_on_of_nodup_map hindex.nodup_shortNames (hpaths namesake hin) hpath hname]

end Consistent

end TypeIndex

namespace ValidationModels

/-- The built-in models by themselves can be registered. -/
theorem exists_register :
    ∃ builtIn, TypeIndex.register graph [response] = .ok builtIn ∧
      builtIn.paths = [response, error] := by
  have hok : (TypeIndex.register graph [response]).toOption.map TypeIndex.paths =
      some [response, error] := by
    simp only [TypeIndex.register, TypeIndex.addRoots, TypeIndex.addRoot,
      TypeIndex.visit_eq_visitWithin]
    decide +kernel
  obtain ⟨builtIn, hbuiltIn, hpaths⟩ := Option.map_eq_some_iff.mp hok
  exact ⟨builtIn, toOption_eq_some_iff.mp hbuiltIn, hpaths⟩

variable {user : ModelGraph} {roots : List ModelPath} {routes : List RouteDef}
  {index builtIn : TypeIndex}

/-- The graph defines a model as the built-in graph does. -/
def DefinedBy (user : ModelGraph) (path : ModelPath) : Prop :=
  ∃ object, user.Declares path object ∧ graph.Declares path object

/-- The index of a module with routes: what the roots and routes lead to in the graph, and behind
it what is still missing of the built-in models. -/
theorem indexFor_parts (h : indexFor user roots routes = .ok index) (hroutes : routes ≠ []) :
    ∃ (before : List ModelPath) (added : List (ModelPath × ObjectType)),
      index.paths = before ++ added.map Prod.fst ∧
      (∀ entry ∈ added, entry ∈ index.objects ∧ graph.Declares entry.1 entry.2) ∧
      (∀ path, path ∈ before ↔
        Reachable user.references (roots ++ routes.flatMap RouteDef.models) path) ∧
      Preorder graph.references before [response] (added.map Prod.fst) := by
  obtain ⟨registered, hregistered, h⟩ := bind_eq_ok_iff.mp h
  obtain ⟨_, hcovers⟩ := TypeIndex.register_ok hregistered
  rw [if_neg (by simpa using hroutes)] at h
  obtain ⟨visited, added, _, _, hadded, horder, _, _, rfl⟩ := TypeIndex.addRoot_ok h
  refine ⟨registered.paths, added, hadded.paths_eq, fun entry hentry => ?_, fun path => ?_, horder⟩
  · refine ⟨?_, hadded.declares entry hentry⟩
    change entry ∈ visited.objects
    rw [hadded.objects_eq]
    exact List.mem_append_right _ hentry
  · rw [hcovers.order.mem_iff_reachable]
    exact ⟨fun hpath => hpath.mono fun root => mem_withRouteModels_iff.mp,
      fun hpath => hpath.mono fun root => mem_withRouteModels_iff.mpr⟩

/-- Where the graph has the built-in models only as they are, they are all declared as they are. -/
theorem extends_of_definedBy (h : indexFor user roots routes = .ok index) (hroutes : routes ≠ [])
    (hbuiltIn : TypeIndex.register graph [response] = .ok builtIn)
    (hdefined : ∀ path ∈ builtIn.paths,
      Reachable user.references (roots ++ routes.flatMap RouteDef.models) path →
        DefinedBy user path) : builtIn.Extends index := by
  obtain ⟨_, hcovers⟩ := TypeIndex.register_ok hbuiltIn
  have hsound := sound_indexFor h
  obtain ⟨before, added, hpaths, hadded, hbefore, horder⟩ := indexFor_parts h hroutes
  -- what was there before refers to the same models as in the built-in graph
  have hdeclared : ∀ path ∈ builtIn.paths, path ∈ index.paths := by
    intro path hpath
    have hreachable := (hcovers.order.mem_iff_reachable path).mp hpath
    refine (@Reachable.holds _ _ _ (fun path => path ∈ builtIn.paths ∧ path ∈ index.paths)
      ?_ ?_ _ hreachable).2
    · intro root hroot
      refine ⟨by simpa using hcovers.order.pending_subset root hroot, ?_⟩
      rw [hpaths]
      exact horder.pending_subset root hroot
    · rintro node ⟨hnode, hin⟩ child hchild
      refine ⟨hcovers.closed hnode hchild, ?_⟩
      rw [hpaths] at hin ⊢
      rcases List.mem_append.mp hin with hold | hnew
      · obtain ⟨object, huser, hgraph⟩ := hdefined node hnode ((hbefore node).mp hold)
        rw [hgraph.references_eq, ← huser.references_eq] at hchild
        exact List.mem_append_left _ ((hbefore child).mpr (((hbefore node).mp hold).step hchild))
      · exact horder.next_subset node hnew child hchild
  intro path object hobject
  have hpath := TypeIndex.exists_object_iff.mp ⟨object, hobject⟩
  have hin := hdeclared path hpath
  rw [hpaths] at hin
  rcases List.mem_append.mp hin with hold | hnew
  · have hreachable := (hbefore path).mp hold
    obtain ⟨found, hfound, huser⟩ := (indexFor_declares h).2 path hreachable
    obtain ⟨same, huser', hgraph⟩ := hdefined path hpath hreachable
    obtain rfl := huser.unique huser'
    rw [(hcovers.object_declares hobject).unique hgraph]
    exact hsound.object?_eq_some_iff.mpr hfound
  · obtain ⟨entry, hentry, rfl⟩ := List.mem_map.mp hnew
    obtain ⟨hfound, hgraph⟩ := hadded entry hentry
    rw [(hcovers.object_declares hobject).unique hgraph]
    exact hsound.object?_eq_some_iff.mpr hfound

/-- The built-in models are declared as they are exactly if the graph leads to no model of their
paths that it defines in another way. -/
theorem includes_iff (h : indexFor user roots routes = .ok index) (hroutes : routes ≠ [])
    (hbuiltIn : TypeIndex.register graph [response] = .ok builtIn) :
    index.Includes builtIn ↔ ∀ path ∈ builtIn.paths,
      Reachable user.references (roots ++ routes.flatMap RouteDef.models) path →
        DefinedBy user path := by
  obtain ⟨hbuiltInSound, hcovers⟩ := TypeIndex.register_ok hbuiltIn
  have hsound := sound_indexFor h
  constructor
  · intro hincludes path hpath hreachable
    obtain ⟨object, hentry, huser⟩ := (indexFor_declares h).2 path hreachable
    have hobject := hsound.object?_eq_some_iff.mpr hentry
    rw [hincludes.objects path hpath] at hobject
    exact ⟨object, huser, hcovers.object_declares hobject⟩
  · intro hdefined
    exact hsound.toConsistent.includes hbuiltInSound.toConsistent
      (extends_of_definedBy h hroutes hbuiltIn hdefined)

/-- The error class stands in the module, and the function by which it decodes a body is the one
that the index has for the response. -/
structure DecodedBy (module : Module) (index : TypeIndex) : Prop where
  apiError : RouteHelpers.apiError ∈ module.preamble
  decoder : ∃ function, index.function? .fromWire response = some function ∧
    function.name = Direction.fromWire.functionName response.shortName ∧
    module.DeclaresFunction function.declared

theorem decodedBy {module : Module} (h : indexFor user roots routes = .ok index)
    (hroutes : routes ≠ []) (hmodule : index.module routes = .ok module) :
    DecodedBy module index := by
  have hsound := sound_indexFor h
  obtain ⟨before, added, hpaths, _, _, horder⟩ := indexFor_parts h hroutes
  have hresponse : response ∈ index.paths := by
    rw [hpaths]
    exact horder.pending_subset response List.mem_cons_self
  constructor
  · obtain ⟨_, _, _, _, hpreamble, _⟩ := TypeIndex.module_parts hmodule
    rw [hpreamble, RouteHelpers.forRoutes, if_neg (by simpa using hroutes)]
    simp
  · obtain ⟨function, hfunction, _⟩ := hsound.exists_function hresponse .fromWire
    exact ⟨function, hfunction, hsound.name_of_function? hfunction,
      hsound.declaresFunction hmodule hfunction⟩

end ValidationModels

/-- A module with routes declares what the roots and routes lead to as the graph has it, each
declaration under a name of its own, and decodes validation errors with what it declares under the
path of the response. It declares the built-in models, with their conversion
functions, exactly if the graph leads to no model under one of their paths that it defines in
another way; such a model is no error and stands in their place. -/
theorem generate_includes_validationModels_iff {graph : ModelGraph} {roots : List ModelPath}
    {routes : List RouteDef} {generated : Generated}
    (h : generate graph roots routes = .ok generated) (hroutes : routes ≠ []) :
    ∃ index module builtIn, indexFor graph roots routes = .ok index ∧
      index.module routes = .ok module ∧ generated.code = module.print ∧
      index.DeclaredIn module ∧ ValidationModels.DecodedBy module index ∧
      (∀ path, Reachable graph.references (roots ++ routes.flatMap RouteDef.models) path →
        ∃ object, index.object? path = some object ∧ graph.Declares path object) ∧
      TypeIndex.register ValidationModels.graph [ValidationModels.response] = .ok builtIn ∧
      builtIn.paths = [ValidationModels.response, ValidationModels.error] ∧
      (index.Includes builtIn ↔ ∀ path ∈ builtIn.paths,
        Reachable graph.references (roots ++ routes.flatMap RouteDef.models) path →
          ValidationModels.DefinedBy graph path) := by
  obtain ⟨index, module, hindex, hmodule, rfl⟩ := generate_eq_ok_iff.mp h
  have hsound := sound_indexFor hindex
  obtain ⟨builtIn, hbuiltIn, hpaths⟩ := ValidationModels.exists_register
  refine ⟨index, module, builtIn, hindex, hmodule, rfl, hsound.declaredIn hmodule,
    ValidationModels.decodedBy hindex hroutes hmodule, ?_, hbuiltIn, hpaths,
    ValidationModels.includes_iff hindex hroutes hbuiltIn⟩
  intro path hpath
  obtain ⟨object, hentry, hobject⟩ := (indexFor_declares hindex).2 path hpath
  exact ⟨object, hsound.object?_eq_some_iff.mpr hentry, hobject⟩

/-- A graph with a model of its own under the path of a built-in one. -/
def codeGraph : ModelGraph :=
  .ofList [(ValidationModels.response, ⟨[⟨"code", .primitive .int, none⟩]⟩)]

/-- A route without bodies. -/
def checkRoute : RouteDef :=
  ⟨"check", none, .post, "/api/check", none, none, none⟩

/-- The module declares that model, and not the built-in one. -/
theorem generate_includes_validationModels_iff_code :
    ∃ generated index module builtIn object,
      generate codeGraph [ValidationModels.response] [checkRoute] = .ok generated ∧
      index.module [checkRoute] = .ok module ∧ generated.code = TypeScript.Module.print module ∧
      TypeIndex.register ValidationModels.graph [ValidationModels.response] = .ok builtIn ∧
      ¬ TypeIndex.Includes index builtIn ∧ codeGraph.Declares ValidationModels.response object ∧
      module.DeclaresType object.typeDecl := by
  have hok : (generate codeGraph [ValidationModels.response] [checkRoute]).toOption.isSome =
      true := by
    have hroots : withRouteModels [ValidationModels.response] [checkRoute] =
        [ValidationModels.response] := by decide +kernel
    simp only [generate, indexFor, hroots, TypeIndex.register, TypeIndex.addRoots,
      TypeIndex.addRoot, TypeIndex.visit_eq_visitWithin]
    decide +kernel
  obtain ⟨generated, hgenerated⟩ := exists_ok_of_isSome hok
  obtain ⟨index, module, builtIn, _, hmodule, hcode, hdeclaredIn, _, hreachable, hbuiltIn, hpaths,
    hiff⟩ := generate_includes_validationModels_iff hgenerated (by decide)
  have hroot : Reachable codeGraph.references
      ([ValidationModels.response] ++ [checkRoute].flatMap RouteDef.models)
      ValidationModels.response := .root List.mem_cons_self
  obtain ⟨object, hobject, hdeclares⟩ := hreachable _ hroot
  refine ⟨generated, index, module, builtIn, object, hgenerated, hmodule, hcode, hbuiltIn, ?_,
    hdeclares, hdeclaredIn.types _ _ hobject⟩
  intro hincludes
  obtain ⟨same, huser, hgraph⟩ :=
    hiff.mp hincludes ValidationModels.response (by rw [hpaths]; exact List.mem_cons_self) hroot
  have hreferences := huser.references_eq.trans hgraph.references_eq.symm
  revert hreferences
  decide +kernel

end SchemaWire
