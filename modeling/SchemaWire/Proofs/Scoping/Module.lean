import SchemaWire.Proofs.Naming.Module
import SchemaWire.Proofs.Scoping.Helpers
import SchemaWire.Proofs.Scoping.Wrapper

/-!
Generated modules are closed. The main statement is that every name a module mentions is local and
hides nothing, or is provided by a global or by a declaration of the module, and that the helpers
that not every module needs are declared exactly if they are called.
-/
namespace SchemaWire

open TypeScript (AllResolve Declaration Mention Ty)

/-- A form field has the names of the field that it is made from. -/
theorem ObjectField.mem_atoms_widened {field : ObjectField} {atom : TypeScript.Atom} :
    atom ∈ field.widened.atoms ↔ atom ∈ field.ty.atoms := by
  have hnullable : atom ∈ field.ty.nullable.atoms ↔ atom ∈ field.ty.atoms := Ty.mem_atoms_nullable
  unfold widened
  split
  · rfl
  · rw [← hnullable]
    split
    · rename_i members heq
      simp [heq, Ty.atoms, Ty.mem_atomsAll, or_and_right, exists_or]
    · simp [Ty.atoms, Ty.atomsAll]

namespace RouteHelpers

/-- Which helpers a module declares. -/
theorem mem_names_preamble {routes : List RouteDef} {needsUnreachable : Bool} {name : String} :
    name ∈ (forRoutes routes ++ if needsUnreachable then [unreachable] else []).flatMap
        Declaration.declaredNames ↔
      (routes ≠ [] ∧ name ∈ [HelperName.apiError, HelperName.isValidationErrorResponse,
        HelperName.readErrorBody]) ∨
      ((∃ route ∈ routes, route.sendsQuery = true) ∧ name = HelperName.encodeQuery) ∨
      (needsUnreachable = true ∧ name = HelperName.unreachable) := by
  have hunreachable : name ∈ (if needsUnreachable then [unreachable] else []).flatMap
      Declaration.declaredNames ↔ needsUnreachable = true ∧ name = HelperName.unreachable := by
    cases needsUnreachable <;> simp [declaredNames_unreachable]
  rw [List.flatMap_append, List.mem_append, hunreachable, ← or_assoc]
  refine or_congr_left ?_
  rw [← List.any_eq_true]
  cases routes with
  | nil => simp [forRoutes]
  | cons route rest =>
      generalize hqueries : (route :: rest).any RouteDef.sendsQuery = queries
      cases queries <;> simp [forRoutes, hqueries, declaredNames_apiError,
        declaredNames_validationGuard, declaredNames_readErrorBody, declaredNames_encodeQuery,
        or_assoc]

end RouteHelpers

/-- The values to which a module of the index refers: globals, helpers and conversion functions. -/
def TypeIndex.outerValues (index : TypeIndex) (module : TypeScript.Module) : List String :=
  globalNames ++ module.preamble.flatMap Declaration.declaredNames ++
    (index.fromWire ++ index.toWire).map fun entry => entry.2.declared.name

/-- The types to which a module refers: globals, the types that it declares, and the type of
nothing. -/
def TypeScript.Module.outerTypes (module : TypeScript.Module) : List String :=
  "void" :: globalNames ++ module.types.map TypeScript.TypeDecl.name

namespace TypeIndex

variable {index : TypeIndex} {routes : List RouteDef} {module : TypeScript.Module}

theorem function_mem_outerValues (hsound : index.Sound) {path : ModelPath} {object : ObjectType}
    (hobject : index.object? path = some object) (dir : Direction) :
    dir.functionName object.name ∈ index.outerValues module := by
  have hmem := mem_objects_of_object? hobject
  have hpath : path ∈ index.paths := List.mem_map_of_mem hmem
  rw [hsound.named _ hmem, outerValues, List.map_append, hsound.functionNames_eq hsound.fromWire,
    hsound.functionNames_eq hsound.toWire]
  refine List.mem_append_right _ ?_
  cases dir with
  | fromWire => exact List.mem_append_left _ (List.mem_map_of_mem hpath)
  | toWire => exact List.mem_append_right _ (List.mem_map_of_mem hpath)

theorem helper_mem_preamble_iff (hmodule : index.module routes = .ok module) {name : String} :
    name ∈ module.preamble.flatMap Declaration.declaredNames ↔
      (routes ≠ [] ∧ name ∈ [HelperName.apiError, HelperName.isValidationErrorResponse,
        HelperName.readErrorBody]) ∨
      ((∃ route ∈ routes, route.sendsQuery = true) ∧ name = HelperName.encodeQuery) ∨
      (index.needsUnreachable = true ∧ name = HelperName.unreachable) := by
  obtain ⟨forms, wrappers, _, _, hpreamble, _, _⟩ := module_parts hmodule
  rw [hpreamble]
  exact RouteHelpers.mem_names_preamble

/-- A name that is no global, helper or conversion function hides nothing to which a module
refers. -/
theorem not_mem_outerValues (hsound : index.Sound) (hmodule : index.module routes = .ok module)
    {name : String} (hname : name ∉ globalNames ∧ name ∉ HelperName.all ∧
      ∀ (dir : Direction) (typeName : String), name ≠ dir.functionName typeName) :
    name ∉ index.outerValues module := by
  obtain ⟨forms, wrappers, _, _, hpreamble, _, _⟩ := module_parts hmodule
  obtain ⟨hglobal, hhelper, hfunction⟩ := hname
  intro hmem
  rw [outerValues, hpreamble, List.mem_append, List.mem_append, List.mem_map] at hmem
  rcases hmem with (hin | hin) | ⟨entry, hentry, rfl⟩
  · exact hglobal hin
  · exact hhelper ((RouteHelpers.declaredNames_preamble _ _).2 name hin)
  · obtain ⟨dir, path, object, entries, _, hconverts⟩ := hsound.converts hentry
    exact hfunction dir object.name hconverts.name_eq

theorem provides_module (hsound : index.Sound) (hmodule : index.module routes = .ok module) :
    index.Provides (index.outerValues module) module.outerTypes := by
  obtain ⟨forms, wrappers, _, _, _, htypes, _⟩ := module_parts hmodule
  refine ⟨?_, ?_, ?_, ?_, ?_, ?_⟩
  · exact fun name hname => List.mem_append_left _ (List.mem_append_left _ hname)
  · exact fun name hname => List.mem_append_left _ (List.mem_cons_of_mem _ hname)
  · exact fun dir path object hobject => function_mem_outerValues hsound hobject dir
  · intro path hpath
    refine List.mem_append_right _ ?_
    rw [htypes, List.map_append, List.map_append, hsound.objectNames_eq]
    exact List.mem_append_left _ (List.mem_append_right _ (List.mem_map_of_mem hpath))
  · intro hneeds
    refine List.mem_append_left _ (List.mem_append_right _ ?_)
    exact (helper_mem_preamble_iff hmodule).mpr (Or.inr (Or.inr ⟨hneeds, rfl⟩))
  · exact fun depth name hlocal => not_mem_outerValues hsound hmodule hlocal.not_outer

theorem provides_wrapper (hsound : index.Sound) (hmodule : index.module routes = .ok module)
    {route : RouteDef} (hroute : route ∈ routes) :
    route.Provides index (index.outerValues module) module.outerTypes := by
  have hne : routes ≠ [] := List.ne_nil_of_mem hroute
  have hhelper : ∀ name, name ∈ module.preamble.flatMap Declaration.declaredNames →
      name ∈ index.outerValues module :=
    fun name hname => List.mem_append_left _ (List.mem_append_right _ hname)
  refine ⟨provides_module hsound hmodule, hhelper _ ?_, hhelper _ ?_, fun hsends => hhelper _ ?_,
    List.mem_append_left _ List.mem_cons_self⟩ <;> rw [helper_mem_preamble_iff hmodule]
  · exact Or.inl ⟨hne, by decide⟩
  · exact Or.inl ⟨hne, by decide⟩
  · exact Or.inr (Or.inl ⟨⟨route, hroute, hsends⟩, rfl⟩)

/-- The fields of a form are closed, as those that it is made from are. -/
theorem Provides.resolves_typeDecl {values types : List String} (h : index.Provides values types)
    (hindex : index.Consistent) (hmodule : index.module routes = .ok module) :
    ∀ decl ∈ module.types, AllResolve values types decl.mentions := by
  obtain ⟨forms, wrappers, hforms, _, _, htypes, _⟩ := module_parts hmodule
  have hobject : ∀ object : ObjectType, (∀ field ∈ object.fields, ∀ word,
      .name word ∈ field.ty.atoms → word ∈ types) →
      AllResolve values types object.typeDecl.mentions := by
    intro object hfields mention hmention
    obtain ⟨property, hproperty, hin⟩ := List.mem_flatMap.mp hmention
    obtain ⟨field, hfield, rfl⟩ := List.mem_map.mp hproperty
    exact TypeScript.resolves_ty.mpr (hfields field hfield) mention hin
  intro decl hdecl
  rw [htypes, List.mem_append, List.mem_append] at hdecl
  rcases hdecl with (henum | hdeclared) | hform
  · obtain ⟨entry, _, rfl⟩ := List.mem_map.mp henum
    intro mention hmention
    cases hmention
  · obtain ⟨⟨path, object⟩, hentry, rfl⟩ := List.mem_map.mp hdeclared
    exact hobject object fun field hfield =>
      h.name_mem_fieldTy hindex (hindex.object?_eq_some_iff.mpr hentry) hfield
  · obtain ⟨form, hmem, rfl⟩ := List.mem_map.mp hform
    obtain ⟨route, _, hok⟩ := RouteDef.mem_of_forms hforms form hmem
    refine hobject form fun field hfield word hword => ?_
    obtain ⟨path, _, source, hsource, origin, horigin, rfl⟩ :=
      RouteDef.form_parts hok form rfl field hfield
    exact h.name_mem_fieldTy hindex hsource horigin word (ObjectField.mem_atoms_widened.mp hword)

theorem resolves_functions (hsound : index.Sound) (hmodule : index.module routes = .ok module) :
    ∀ declared ∈ module.functions,
      AllResolve (index.outerValues module) module.outerTypes declared.mentions := by
  obtain ⟨forms, wrappers, _, hwrappers, _, _, hfunctions⟩ := module_parts hmodule
  intro declared hdeclared
  rw [hfunctions, List.mem_append] at hdeclared
  rcases hdeclared with hwire | hroute
  · obtain ⟨entry, hentry, rfl⟩ := List.mem_map.mp hwire
    exact (provides_module hsound hmodule).resolves_wireFunction hsound.toConsistent hentry
  · obtain ⟨function, hfunction, rfl⟩ := List.mem_map.mp hroute
    obtain ⟨route, hmem, hwrapper⟩ := (RouteDef.mem_wrappers_iff hwrappers function).mp hfunction
    exact (provides_wrapper hsound hmodule hmem).resolves_wrapper hsound.toConsistent hwrapper

/-- The helpers of a module are closed. The error class decodes validation errors, so their models
have to be declared where there are routes. -/
theorem resolves_preamble (hsound : index.Sound) (hmodule : index.module routes = .ok module)
    (hvalidation : routes ≠ [] → ValidationModels.response ∈ index.paths) :
    ∀ declared ∈ module.preamble,
      AllResolve (index.outerValues module) module.outerTypes declared.mentions := by
  obtain ⟨forms, wrappers, _, _, hpreamble, _, _⟩ := module_parts hmodule
  have hprovides := provides_module hsound hmodule
  have hbound : ∀ name ∈ RouteHelpers.boundNames, name ∉ index.outerValues module :=
    fun name hname =>
      not_mem_outerValues hsound hmodule (RouteHelpers.not_outer_of_mem_boundNames hname)
  have hglobals : ∀ name ∈ globalNames,
      name ∈ index.outerValues module ∨ name ∈ module.outerTypes :=
    fun name hname => Or.inl (hprovides.globalValue name hname)
  have hdeclared : ∀ name ∈ module.preamble.flatMap Declaration.declaredNames,
      name ∈ index.outerValues module ∨ name ∈ module.outerTypes :=
    fun name hname => Or.inl (List.mem_append_left _ (List.mem_append_right _ hname))
  have hown : ∀ {declared : Declaration} {name : String}, declared ∈ module.preamble →
      declared.declaredNames = [name] → ∀ other ∈ name :: globalNames,
        other ∈ index.outerValues module ∨ other ∈ module.outerTypes := by
    intro declared name hmem hnames
    refine List.forall_mem_cons.mpr ⟨hdeclared name ?_, hglobals⟩
    exact List.mem_flatMap.mpr ⟨declared, hmem, hnames ▸ List.mem_cons_self⟩
  intro declared hmem
  have hcases := hmem
  rw [hpreamble] at hcases
  rcases RouteHelpers.mem_preamble hcases with ⟨hne, hin⟩ | rfl | rfl
  · simp only [List.mem_cons, List.not_mem_nil, or_false] at hin
    rcases hin with rfl | rfl | rfl
    · obtain ⟨object, hobject⟩ := exists_object_iff.mpr (hvalidation hne)
      have hdecode : Direction.fromWire.functionName object.name ∈ index.outerValues module :=
        function_mem_outerValues hsound hobject .fromWire
      rw [hsound.named _ (mem_objects_of_object? hobject)] at hdecode
      have hcheck : HelperName.isValidationErrorResponse ∈
          module.preamble.flatMap Declaration.declaredNames :=
        (helper_mem_preamble_iff hmodule).mpr (Or.inl ⟨hne, by decide⟩)
      refine RouteHelpers.usesOnly_apiError.resolves hbound ?_
      simp only [List.forall_mem_cons]
      exact ⟨hown hmem RouteHelpers.declaredNames_apiError _ List.mem_cons_self,
        hdeclared _ hcheck, Or.inr (hprovides.named _ (hvalidation hne)), Or.inl hdecode, hglobals⟩
    · exact RouteHelpers.usesOnly_validationGuard.resolves hbound
        (hown hmem RouteHelpers.declaredNames_validationGuard)
    · exact RouteHelpers.usesOnly_readErrorBody.resolves hbound
        (hown hmem RouteHelpers.declaredNames_readErrorBody)
  · exact RouteHelpers.usesOnly_encodeQuery.resolves hbound
      (hown hmem RouteHelpers.declaredNames_encodeQuery)
  · exact RouteHelpers.usesOnly_unreachable.resolves hbound
      (hown hmem RouteHelpers.declaredNames_unreachable)

/-- A module in which the models of validation errors are declared where there are routes is
closed. -/
theorem resolves_module (hsound : index.Sound) (hmodule : index.module routes = .ok module)
    (hvalidation : routes ≠ [] → ValidationModels.response ∈ index.paths) :
    AllResolve (index.outerValues module) module.outerTypes module.mentions := by
  intro mention hmention
  rw [TypeScript.Module.mentions, List.mem_append, List.mem_append] at hmention
  rcases hmention with (hin | hin) | hin
  · obtain ⟨declared, hdeclared, hmem⟩ := List.mem_flatMap.mp hin
    exact resolves_preamble hsound hmodule hvalidation declared hdeclared mention hmem
  · obtain ⟨decl, hdecl, hmem⟩ := List.mem_flatMap.mp hin
    exact (provides_module hsound hmodule).resolves_typeDecl hsound.toConsistent hmodule decl hdecl
      mention hmem
  · obtain ⟨declared, hdeclared, hmem⟩ := List.mem_flatMap.mp hin
    exact resolves_functions hsound hmodule declared hdeclared mention hmem

/-- What a module refers to outside of its functions is a global, or declared by the module. -/
theorem provided_of_mem_outer (hmodule : index.module routes = .ok module) :
    (∀ name ∈ index.outerValues module, name ∈ globalNames ∨ name ∈ module.declaredNames) ∧
      ∀ name ∈ module.outerTypes, name = "void" ∨ name ∈ globalNames ∨
        name ∈ module.declaredNames := by
  obtain ⟨forms, wrappers, _, _, _, _, hfunctions⟩ := module_parts hmodule
  constructor
  · intro name hname
    rw [outerValues, List.mem_append, List.mem_append] at hname
    rcases hname with (hglobal | hhelper) | hfunction
    · exact Or.inl hglobal
    · exact Or.inr (List.mem_append_left _ (List.mem_append_left _ hhelper))
    · obtain ⟨entry, hentry, rfl⟩ := List.mem_map.mp hfunction
      refine Or.inr (List.mem_append_right _ (List.mem_flatMap.mpr
        ⟨.function entry.2.declared, ?_, List.mem_cons_self⟩))
      rw [hfunctions]
      exact List.mem_append_left _ (List.mem_map_of_mem hentry)
  · intro name hname
    rw [TypeScript.Module.outerTypes, List.mem_append, List.mem_cons] at hname
    rcases hname with (hvoid | hglobal) | hdeclared
    · exact Or.inl hvoid
    · exact Or.inr (Or.inl hglobal)
    · exact Or.inr (Or.inr (List.mem_append_left _ (List.mem_append_right _ hdeclared)))

/-- The name of a helper is declared by the helper and by nothing else. -/
theorem helper_mem_declaredNames_iff (hsound : index.Sound)
    (hmodule : index.module routes = .ok module) {name : String} (hhelper : name ∈ HelperName.all) :
    name ∈ module.declaredNames ↔
      name ∈ module.preamble.flatMap Declaration.declaredNames := by
  have hreserved := (RouteHelpers.helperNames_ok name hhelper).2.2
  obtain ⟨_, _, _, _, _, hcheck⟩ := module_ok hsound hmodule
  rw [(perm_declaredNames hsound hmodule).mem_iff, List.mem_append, List.mem_append]
  refine or_iff_left ?_
  rintro (hindex | hroute)
  · obtain ⟨claimant, hclaimant, rfl⟩ := List.mem_map.mp hindex
    have hmem := hsound.mem_claimants_of_mem_declarations claimant hclaimant
    exact hsound.not_reserved hmem (hsound.isIdentifier_of_mem_claimants claimant hmem) hreserved
  · exact hsound.owner?_ne_none (Or.inl hreserved)
      ((RouteDef.checkNames_ok hcheck).2 name hroute).1

/-- A call of a helper that resolves is a call of a declared one. -/
theorem helper_mem_declaredNames_of_callee (hmodule : index.module routes = .ok module)
    {name : String} {locals : List String} (hhelper : name ∈ HelperName.all)
    (hcall : (Mention.callee name locals).Resolves (index.outerValues module) module.outerTypes) :
    name ∈ module.declaredNames := by
  rcases (provided_of_mem_outer hmodule).1 name hcall.2 with hglobal | hdeclared
  · exact absurd hglobal (RouteHelpers.helperNames_ok name hhelper).2.1
  · exact hdeclared

/-- The end of a dispatch is declared exactly if a conversion function calls it. -/
theorem unreachable_mem_declaredNames_iff (hsound : index.Sound)
    (hmodule : index.module routes = .ok module) :
    HelperName.unreachable ∈ module.declaredNames ↔ ∃ entry ∈ index.fromWire ++ index.toWire,
      entry.2.declared.Calls HelperName.unreachable := by
  constructor
  · intro hdeclared
    rw [helper_mem_declaredNames_iff hsound hmodule (by decide),
      helper_mem_preamble_iff hmodule] at hdeclared
    refine hsound.exists_calls_unreachable ?_
    rcases hdeclared with ⟨_, hshared⟩ | ⟨_, hquery⟩ | ⟨hneeds, _⟩
    · exact absurd hshared (by decide)
    · exact absurd hquery (by decide)
    · exact hneeds
  · rintro ⟨entry, hentry, locals, hcall⟩
    exact helper_mem_declaredNames_of_callee hmodule (by decide)
      ((provides_module hsound hmodule).resolves_wireFunction hsound.toConsistent hentry _ hcall)

/-- The encoder of query strings is declared exactly if a wrapper calls it. -/
theorem encodeQuery_mem_declaredNames_iff (hsound : index.Sound)
    (hmodule : index.module routes = .ok module) :
    HelperName.encodeQuery ∈ module.declaredNames ↔ ∃ route ∈ routes, ∃ wrapper,
      route.wrapper index = .ok wrapper ∧ wrapper.Calls HelperName.encodeQuery := by
  constructor
  · intro hdeclared
    rw [helper_mem_declaredNames_iff hsound hmodule (by decide),
      helper_mem_preamble_iff hmodule] at hdeclared
    rcases hdeclared with ⟨_, hshared⟩ | ⟨⟨route, hroute, hsends⟩, _⟩ | ⟨_, hend⟩
    · exact absurd hshared (by decide)
    · obtain ⟨forms, wrappers, _, hwrappers, _⟩ := module_parts hmodule
      obtain ⟨wrapper, hwrapper⟩ := RouteDef.exists_wrapper hwrappers route hroute
      exact ⟨route, hroute, wrapper, hwrapper,
        RouteDef.calls_encodeQuery_of_wrapper hwrapper hsends⟩
    · exact absurd hend (by decide)
  · rintro ⟨route, hroute, wrapper, hwrapper, locals, hcall⟩
    exact helper_mem_declaredNames_of_callee hmodule (by decide)
      ((provides_wrapper hsound hmodule hroute).resolves_wrapper hsound.toConsistent hwrapper _
        hcall)

end TypeIndex

/-- Where there are routes, the models of validation errors are declared. -/
theorem validation_mem_paths {graph : ModelGraph} {roots : List ModelPath}
    {routes : List RouteDef} {index : TypeIndex} (h : indexFor graph roots routes = .ok index)
    (hne : routes ≠ []) : ValidationModels.response ∈ index.paths := by
  obtain ⟨registered, _, h⟩ := bind_eq_ok_iff.mp h
  rw [if_neg (by simpa using hne)] at h
  obtain ⟨visited, added, fromNew, toNew, hadded, horder, _, _, rfl⟩ := TypeIndex.addRoot_ok h
  have hmem := horder.pending_subset _ List.mem_cons_self
  rwa [← hadded.paths_eq] at hmem

/-- Generated modules are closed: every name that they mention is local and hides nothing to which
the module refers, or it is a global or declared by the module and no local name hides it. The
helpers that not every module needs are declared exactly if they are called. -/
theorem generate_closed {graph : ModelGraph} {roots : List ModelPath} {routes : List RouteDef}
    {generated : Generated} (h : generate graph roots routes = .ok generated) :
    ∃ index module, indexFor graph roots routes = .ok index ∧ index.module routes = .ok module ∧
      generated.code = module.print ∧
      (∀ mention ∈ module.mentions,
        mention.Resolves (index.outerValues module) module.outerTypes) ∧
      (∀ name ∈ index.outerValues module, name ∈ globalNames ∨ name ∈ module.declaredNames) ∧
      (∀ name ∈ module.outerTypes, name = "void" ∨ name ∈ globalNames ∨
        name ∈ module.declaredNames) ∧
      (HelperName.unreachable ∈ module.declaredNames ↔ ∃ entry ∈ index.fromWire ++ index.toWire,
        entry.2.declared.Calls HelperName.unreachable) ∧
      (HelperName.encodeQuery ∈ module.declaredNames ↔ ∃ route ∈ routes, ∃ wrapper,
        route.wrapper index = .ok wrapper ∧ wrapper.Calls HelperName.encodeQuery) := by
  obtain ⟨index, module, hindex, hmodule, rfl⟩ := generate_eq_ok_iff.mp h
  have hsound := sound_indexFor hindex
  obtain ⟨hvalues, htypes⟩ := TypeIndex.provided_of_mem_outer hmodule
  exact ⟨index, module, hindex, hmodule, rfl,
    TypeIndex.resolves_module hsound hmodule (validation_mem_paths hindex), hvalues, htypes,
    TypeIndex.unreachable_mem_declaredNames_iff hsound hmodule,
    TypeIndex.encodeQuery_mem_declaredNames_iff hsound hmodule⟩

/-- A model with a union of two others. -/
def searchGraph : ModelGraph :=
  .ofList [
    (⟨"app.Tag"⟩, ⟨[⟨"kind", .literal (.str "tag"), none⟩]⟩),
    (⟨"app.Word"⟩, ⟨[⟨"kind", .literal (.str "word"), none⟩]⟩),
    (⟨"app.Search"⟩, ⟨[⟨"term", .union [.model ⟨"app.Tag"⟩, .model ⟨"app.Word"⟩], none⟩]⟩)]

/-- A route that sends a model with a method that carries no body. -/
def searchRoute : RouteDef :=
  ⟨"search", none, .get, "/search", none, some ⟨"app.Search"⟩, none⟩

theorem generate_closed_search :
    ∃ generated index module, generate searchGraph [] [searchRoute] = .ok generated ∧
      TypeIndex.module index [searchRoute] = .ok module ∧ generated.code = module.print ∧
      (∀ mention ∈ module.mentions,
        mention.Resolves (index.outerValues module) module.outerTypes) ∧
      HelperName.unreachable ∈ module.declaredNames ∧
      HelperName.encodeQuery ∈ module.declaredNames := by
  have hroots : withRouteModels [] [searchRoute] = [⟨"app.Search"⟩] := by decide +kernel
  have hok : (generate searchGraph [] [searchRoute]).toOption.isSome = true := by
    simp only [generate, indexFor, hroots, TypeIndex.register, TypeIndex.addRoots,
      TypeIndex.addRoot, TypeIndex.visit_eq_visitWithin]
    decide +kernel
  have hunion : (indexFor searchGraph [] [searchRoute]).toOption.map TypeIndex.needsUnreachable =
      some true := by
    simp only [indexFor, hroots, TypeIndex.register, TypeIndex.addRoots, TypeIndex.addRoot,
      TypeIndex.visit_eq_visitWithin]
    decide +kernel
  obtain ⟨generated, hgenerated⟩ := exists_ok_of_isSome hok
  obtain ⟨index, module, hindex, hmodule, hcode, hclosed, _, _, hend, hquery⟩ :=
    generate_closed hgenerated
  have hsound := sound_indexFor hindex
  rw [hindex] at hunion
  refine ⟨generated, index, module, hgenerated, hmodule, hcode, hclosed, hend.mpr ?_, hquery.mpr ?_⟩
  · exact hsound.exists_calls_unreachable (Option.some.inj hunion)
  · obtain ⟨forms, wrappers, _, hwrappers, _⟩ := TypeIndex.module_parts hmodule
    obtain ⟨wrapper, hwrapper⟩ :=
      RouteDef.exists_wrapper hwrappers searchRoute List.mem_cons_self
    exact ⟨searchRoute, List.mem_cons_self, wrapper, hwrapper,
      RouteDef.calls_encodeQuery_of_wrapper hwrapper rfl⟩

end SchemaWire
