import Mathlib.Algebra.Order.Group.Multiset
import Mathlib.Tactic.Abel
import SchemaWire.Proofs.Naming.Declared
import SchemaWire.Proofs.Route.Parts

/-!
The names that a generated module declares. Helpers have reserved names, the enums, object types
and conversion functions are claimants of the index, and the forms and wrappers of the routes are
kept apart by the check of the route names. The main statement is that no name is declared twice,
that all are valid, and that none hides a global to which generated code refers.
-/
namespace SchemaWire

open TypeScript (isIdentifier)

namespace TypeIndex

def declarations (index : TypeIndex) : List Claimant :=
  index.enums.names.map .enum ++ index.paths.map .model ++
    (index.paths.map (.function .fromWire) ++ index.paths.map (.function .toWire))

namespace Sound

variable {index : TypeIndex}

theorem nodup_declarations (h : index.Sound) : index.declarations.Nodup := by
  have henums : index.enums.names.Nodup := SortedMap.nodup_keys _
  simp only [declarations, List.nodup_append, List.mem_append, List.mem_map]
  refine ⟨⟨?_, ?_, ?_⟩, ⟨?_, ?_, ?_⟩, ?_⟩
  · exact henums.map fun _ _ heq => Claimant.enum.inj heq
  · exact h.nodup.map fun _ _ heq => Claimant.model.inj heq
  · rintro _ ⟨_, _, rfl⟩ _ ⟨_, _, rfl⟩ heq
    cases heq
  · exact h.nodup.map fun _ _ heq => (Claimant.function.inj heq).2
  · exact h.nodup.map fun _ _ heq => (Claimant.function.inj heq).2
  · rintro _ ⟨_, _, rfl⟩ _ ⟨_, _, rfl⟩ heq
    cases heq
  · rintro _ (⟨_, _, rfl⟩ | ⟨_, _, rfl⟩) _ (⟨_, _, rfl⟩ | ⟨_, _, rfl⟩) heq <;> cases heq

theorem mem_claimants_of_mem_declarations (h : index.Sound) :
    ∀ claimant ∈ index.declarations, claimant ∈ claimants index.objects := by
  intro claimant hmem
  have hpath : ∀ path ∈ index.paths, ∃ tags, ∀ claimant ∈ path.claimants tags,
      claimant ∈ claimants index.objects := by
    intro path hin
    obtain ⟨entry, hentry, rfl⟩ := List.mem_map.mp hin
    exact ⟨entry.2.enumTags, fun claimant hclaimant =>
      List.mem_flatMap.mpr ⟨entry, hentry, hclaimant⟩⟩
  simp only [declarations, List.mem_append, List.mem_map] at hmem
  rcases hmem with (⟨name, hname, rfl⟩ | ⟨path, hin, rfl⟩) | ⟨path, hin, rfl⟩ | ⟨path, hin, rfl⟩
  · rw [h.enums_eq] at hname
    rcases EnumRegistry.mem_names_foldl.mp hname with hempty | ⟨tag, htag, rfl⟩
    · cases hempty
    · obtain ⟨entry, hentry, hin⟩ := List.mem_flatMap.mp htag
      refine List.mem_flatMap.mpr ⟨entry, hentry, ?_⟩
      simp only [ModelPath.claimants, List.mem_cons, List.mem_map]
      exact Or.inr (Or.inr (Or.inr ⟨tag, hin, rfl⟩))
  all_goals
    obtain ⟨tags, hclaims⟩ := hpath path hin
    exact hclaims _ (by simp [ModelPath.claimants])

theorem isIdentifier_of_mem_claimants (h : index.Sound) :
    ∀ claimant ∈ claimants index.objects, isIdentifier claimant.name = true := by
  intro claimant hmem
  obtain ⟨entry, hentry, hin⟩ := List.mem_flatMap.mp hmem
  exact ModelPath.isIdentifier_of_mem_claimants (h.valid entry hentry) (h.checked entry hentry)
    claimant hin

theorem nodup_names (h : index.Sound) : (index.declarations.map Claimant.name).Nodup := by
  refine h.nodup_declarations.map_on fun first hfirst second hsecond hname => ?_
  have hfirstMem := h.mem_claimants_of_mem_declarations first hfirst
  exact h.eq_of_name_eq hfirstMem (h.mem_claimants_of_mem_declarations second hsecond)
    (h.isIdentifier_of_mem_claimants first hfirstMem) hname

theorem objectNames_eq (h : index.Sound) :
    (index.objects.map fun entry => entry.2.typeDecl).map TypeScript.TypeDecl.name =
      index.paths.map ModelPath.shortName := by
  rw [paths, List.map_map, List.map_map]
  exact List.map_congr_left fun entry hentry => h.named entry hentry

theorem functionNames_eq (h : index.Sound) {dir : Direction}
    {functions : List (ModelPath × WireFunction)}
    (hbuilt : index.Builds dir index.paths functions) :
    functions.map (fun entry => entry.2.declared.name) =
      index.paths.map fun path => dir.functionName path.shortName := by
  rw [← List.forall₂_eq_eq_eq, List.forall₂_map_left_iff, List.forall₂_map_right_iff]
  refine hbuilt.flip.imp ?_
  rintro entry path ⟨_, hfunction⟩
  obtain ⟨object, entries, hobject, hconverts⟩ := wireFunction_ok hfunction
  rw [hconverts.name_eq, h.named _ (mem_objects_of_object? hobject)]

/-- The names of the enums, object types and conversion functions of a module. -/
theorem declaredNames_eq (h : index.Sound) :
    (index.enums.typeDecls ++ index.objects.map fun entry => entry.2.typeDecl).map
        TypeScript.TypeDecl.name ++
      (index.fromWire ++ index.toWire).map (fun entry => entry.2.declared.name) =
      index.declarations.map Claimant.name := by
  rw [List.map_append, EnumRegistry.map_name_typeDecls, h.objectNames_eq, List.map_append,
    h.functionNames_eq h.fromWire, h.functionNames_eq h.toWire]
  simp [declarations, Claimant.name, Function.comp_def]

theorem owner?_ne_none (h : index.Sound) {name : String}
    (hname : name ∈ reservedOwners.map Prod.fst ∨ name ∈ index.declarations.map Claimant.name) :
    index.scope.owner? name ≠ none := by
  rcases hname with hreserved | hdeclared
  · obtain ⟨text, hinitial⟩ := Scope.exists_owner?_initial hreserved
    simp [(h.grown name text).mpr (Or.inl hinitial)]
  · obtain ⟨claimant, hclaimant, rfl⟩ := List.mem_map.mp hdeclared
    simp [h.grown.owner? (h.mem_claimants_of_mem_declarations claimant hclaimant)]

end Sound

end TypeIndex

namespace RouteDef

variable {scope : Scope}

theorem claimNames_ok {handler : String} {claimed next : List (String × String)}
    {names : List String} (h : claimNames scope handler claimed names = .ok next) :
    names.Nodup ∧ (∀ name ∈ names, scope.owner? name = none ∧ claimed.lookup name = none) ∧
      ∀ name, next.lookup name = none → claimed.lookup name = none ∧ name ∉ names := by
  induction names generalizing claimed with
  | nil =>
      cases h
      simp
  | cons head rest ih =>
      rw [claimNames] at h
      split at h
      · cases h
      · cases h
      · rename_i howner hclaimed
        obtain ⟨hnodup, hfree, hnext⟩ := ih h
        have hother : ∀ name, ((head, handler) :: claimed).lookup name = none →
            name ≠ head ∧ claimed.lookup name = none := by
          intro name hnone
          by_cases hname : name = head
          · subst hname
            simp at hnone
          · rw [SortedMap.lookup_cons_of_ne hname] at hnone
            exact ⟨hname, hnone⟩
        refine ⟨?_, ?_, ?_⟩
        · exact List.nodup_cons.mpr ⟨fun hmem => (hother head (hfree head hmem).2).1 rfl, hnodup⟩
        · intro name hmem
          rcases List.mem_cons.mp hmem with rfl | hin
          · exact ⟨howner, hclaimed⟩
          · exact ⟨(hfree name hin).1, (hother name (hfree name hin).2).2⟩
        · intro name hnone
          obtain ⟨hrest, hnot⟩ := hnext name hnone
          obtain ⟨hne, hold⟩ := hother name hrest
          exact ⟨hold, by simp [hne, hnot]⟩

/-- The check of the route names keeps them apart from each other and from the scope. -/
theorem checkNames_ok {claimed : List (String × String)} {routes : List RouteDef}
    (h : checkNames scope claimed routes = .ok ()) :
    (routes.flatMap declaredNames).Nodup ∧
      ∀ name ∈ routes.flatMap declaredNames,
        scope.owner? name = none ∧ claimed.lookup name = none := by
  induction routes generalizing claimed with
  | nil => simp
  | cons route rest ih =>
      obtain ⟨next, hclaim, hrest⟩ := bind_eq_ok_iff.mp h
      obtain ⟨hnodup, hfree, hnext⟩ := claimNames_ok (lift_eq_ok_iff.mp hclaim)
      obtain ⟨hrestNodup, hrestFree⟩ := ih hrest
      rw [List.flatMap_cons, List.nodup_append]
      refine ⟨⟨hnodup, hrestNodup, ?_⟩, ?_⟩
      · rintro name hhead _ hin rfl
        exact (hnext name (hrestFree name hin).2).2 hhead
      · intro name hmem
        rcases List.mem_append.mp hmem with hin | hin
        · exact hfree name hin
        · exact ⟨(hrestFree name hin).1, (hnext name (hrestFree name hin).2).1⟩

theorem form_ok {index : TypeIndex} {route : RouteDef} {form : Option ObjectType}
    (h : route.form index = .ok form) :
    form.toList.map ObjectType.name = if route.hasForm then [route.formName] else [] := by
  rcases form_cases h with ⟨hform, rfl⟩ | ⟨_, _, _, hform, _, _, _, rfl⟩ <;> simp [hform]

theorem wrapper_ok {index : TypeIndex} {route : RouteDef} {function : TypeScript.Function}
    (h : route.wrapper index = .ok function) :
    isIdentifier route.name = true ∧ function.name = route.name := by
  obtain ⟨hvalid, _, _, _, _, _, _, _, _, _, _, rfl⟩ := wrapper_eq_ok_iff.mp h
  exact ⟨hvalid, rfl⟩

theorem forms_ok {index : TypeIndex} {routes : List RouteDef} {declared : List ObjectType}
    (h : forms index routes = .ok declared) :
    declared.map ObjectType.name =
      routes.flatMap fun route => if route.hasForm then [route.formName] else [] := by
  obtain ⟨found, hfound, rfl⟩ := forms_eq_ok_iff.mp h
  clear h
  induction hfound with
  | nil => rfl
  | cons hform _ ih =>
      rw [List.flatMap_cons, List.map_append, List.flatMap_cons, form_ok hform, ih]

theorem wrappers_ok {index : TypeIndex} {routes : List RouteDef}
    {functions : List TypeScript.Function} (h : wrappers index routes = .ok functions) :
    (∀ route ∈ routes, isIdentifier route.name = true) ∧
      functions.map TypeScript.Function.name = routes.map RouteDef.name := by
  have hwrappers := wrappers_eq_ok_iff.mp h
  constructor
  · intro route hroute
    obtain ⟨function, _, hwrapper⟩ := exists_right_of_forall₂ hwrappers route hroute
    exact (wrapper_ok hwrapper).1
  · rw [← List.forall₂_eq_eq_eq, List.forall₂_map_left_iff, List.forall₂_map_right_iff]
    exact hwrappers.flip.imp fun _ _ hwrapper => (wrapper_ok hwrapper).2

/-- The name of a form is valid if the route has a valid name. -/
theorem isIdentifier_formName {route : RouteDef} (hvalid : isIdentifier route.name = true) :
    isIdentifier route.formName = true :=
  TypeScript.isIdentifier_append
    (TypeScript.isBareName_capitalize (TypeScript.isBareName_of_isIdentifier hvalid))
    (by decide) ⟨'F', by decide, rfl⟩

theorem isIdentifier_of_mem_declaredNames {routes : List RouteDef}
    (hvalid : ∀ route ∈ routes, isIdentifier route.name = true) :
    ∀ name ∈ routes.flatMap declaredNames, isIdentifier name = true := by
  intro name hmem
  obtain ⟨route, hroute, hin⟩ := List.mem_flatMap.mp hmem
  have hname := hvalid route hroute
  unfold declaredNames at hin
  split at hin
  · simp only [List.mem_cons, List.not_mem_nil, or_false] at hin
    rcases hin with rfl | rfl
    · exact hname
    · exact isIdentifier_formName hname
  · rw [List.mem_singleton.mp hin]
    exact hname

/-- The routes declare their wrappers and their forms. -/
theorem perm_declaredNames (routes : List RouteDef) :
    (routes.flatMap declaredNames).Perm
      ((routes.flatMap fun route => if route.hasForm then [route.formName] else []) ++
        routes.map RouteDef.name) := by
  induction routes with
  | nil => exact .nil
  | cons route rest ih =>
      rw [List.flatMap_cons, List.flatMap_cons, List.map_cons, List.append_assoc]
      refine .trans (.append_left _ ih) ?_
      unfold declaredNames
      split
      · simp only [List.cons_append, List.nil_append]
        exact (List.Perm.swap _ _ _).trans (List.perm_middle.symm.cons _)
      · simp only [List.cons_append, List.nil_append]
        exact List.perm_middle.symm

end RouteDef

theorem perm_interleave {α : Type} (helpers types forms functions wrappers : List α) :
    (helpers ++ (types ++ forms) ++ (functions ++ wrappers)).Perm
      (helpers ++ (types ++ functions ++ (forms ++ wrappers))) := by
  rw [← Multiset.coe_eq_coe]
  simp only [← Multiset.coe_add]
  abel

namespace TypeIndex

/-- A module declares the names of its helpers, of the index and of the routes. -/
theorem perm_declaredNames {index : TypeIndex} {routes : List RouteDef}
    {module : TypeScript.Module} (hsound : index.Sound) (h : index.module routes = .ok module) :
    module.declaredNames.Perm
      (module.preamble.flatMap TypeScript.Declaration.declaredNames ++
        (index.declarations.map Claimant.name ++ routes.flatMap RouteDef.declaredNames)) := by
  obtain ⟨forms, wrappers, hforms, hwrappers, _, htypes, hfunctions⟩ := module_parts h
  have hroutes := RouteDef.perm_declaredNames routes
  rw [← RouteDef.forms_ok hforms, ← (RouteDef.wrappers_ok hwrappers).2] at hroutes
  refine .trans ?_ (.append_left _ (.append_left _ hroutes.symm))
  rw [← hsound.declaredNames_eq]
  refine .trans (.of_eq ?_) (perm_interleave _ _ _ _ _)
  simp [TypeScript.Module.declaredNames, TypeScript.Declaration.declaredNames, htypes, hfunctions,
    List.flatMap_map, ← List.map_eq_flatMap, ObjectType.typeDecl, Function.comp_def]

/-- The names of a module: those of the helpers, of the index and of the routes. -/
theorem module_ok {index : TypeIndex} {routes : List RouteDef} {module : TypeScript.Module}
    (hsound : index.Sound) (h : index.module routes = .ok module) :
    ∃ helpers, helpers.Nodup ∧ (∀ name ∈ helpers, name ∈ HelperName.all) ∧
      module.declaredNames.Perm
        (helpers ++ (index.declarations.map Claimant.name ++
          routes.flatMap RouteDef.declaredNames)) ∧
      (∀ route ∈ routes, isIdentifier route.name = true) ∧
      RouteDef.checkNames index.scope [] routes = .ok () := by
  have hperm := perm_declaredNames hsound h
  obtain ⟨_, hcheck, h⟩ := bind_eq_ok_iff.mp h
  obtain ⟨forms, hforms, h⟩ := bind_eq_ok_iff.mp h
  obtain ⟨wrappers, hwrappers, h⟩ := bind_eq_ok_iff.mp h
  cases pure_eq_ok_iff.mp h
  obtain ⟨hnodup, hhelpers⟩ := RouteHelpers.declaredNames_preamble routes index.needsUnreachable
  exact ⟨_, hnodup, hhelpers, hperm, (RouteDef.wrappers_ok hwrappers).1, hcheck⟩

end TypeIndex

theorem generate_eq_ok_iff {graph : ModelGraph} {roots : List ModelPath}
    {routes : List RouteDef} {generated : Generated} :
    generate graph roots routes = .ok generated ↔ ∃ index module,
      indexFor graph roots routes = .ok index ∧ index.module routes = .ok module ∧
        generated = ⟨module.print, index.size, index.enums.size, routes.length⟩ := by
  simp only [generate, bind_eq_ok_iff, pure_eq_ok_iff, @eq_comm _ generated, exists_and_left]

/-- The index of a generation is sound. -/
theorem sound_indexFor {graph : ModelGraph} {roots : List ModelPath} {routes : List RouteDef}
    {index : TypeIndex} (h : indexFor graph roots routes = .ok index) : index.Sound := by
  obtain ⟨registered, hregistered, h⟩ := bind_eq_ok_iff.mp h
  have hsound := (TypeIndex.register_ok hregistered).1
  split at h
  · cases pure_eq_ok_iff.mp h
    exact hsound
  · exact hsound.addRoot h

/-- Everything that a generated module declares at its top level has a name of its own, which is
valid and hides no global. -/
theorem generate_declares_distinct_names {graph : ModelGraph} {roots : List ModelPath}
    {routes : List RouteDef} {generated : Generated}
    (h : generate graph roots routes = .ok generated) :
    ∃ index module, indexFor graph roots routes = .ok index ∧
      index.module routes = .ok module ∧ generated.code = module.print ∧
      module.declaredNames.Nodup ∧
      ∀ name ∈ module.declaredNames, isIdentifier name = true ∧ name ∉ globalNames := by
  obtain ⟨index, module, hindex, hmodule, rfl⟩ := generate_eq_ok_iff.mp h
  have hsound := sound_indexFor hindex
  obtain ⟨helpers, hnodup, hhelpers, hperm, hvalid, hcheck⟩ :=
    TypeIndex.module_ok hsound hmodule
  obtain ⟨hroutesNodup, hfree⟩ := RouteDef.checkNames_ok hcheck
  have hdeclared : ∀ claimant ∈ index.declarations, isIdentifier claimant.name = true ∧
      claimant.name ∉ reservedOwners.map Prod.fst := by
    intro claimant hclaimant
    have hmem := hsound.mem_claimants_of_mem_declarations claimant hclaimant
    have hname := hsound.isIdentifier_of_mem_claimants claimant hmem
    exact ⟨hname, hsound.not_reserved hmem hname⟩
  have hglobal : ∀ name ∈ globalNames, name ∈ reservedOwners.map Prod.fst := by decide
  refine ⟨index, module, hindex, hmodule, rfl, ?_, ?_⟩
  · rw [hperm.nodup_iff, List.nodup_append, List.nodup_append]
    refine ⟨hnodup, ⟨hsound.nodup_names, hroutesNodup, ?_⟩, ?_⟩
    · rintro name hindexName _ hroute rfl
      exact hsound.owner?_ne_none (Or.inr hindexName) (hfree name hroute).1
    · rintro name hhelper _ hother rfl
      have hreserved := (RouteHelpers.helperNames_ok name (hhelpers name hhelper)).2.2
      rcases List.mem_append.mp hother with hin | hin
      · obtain ⟨claimant, hclaimant, rfl⟩ := List.mem_map.mp hin
        exact (hdeclared claimant hclaimant).2 hreserved
      · exact hsound.owner?_ne_none (Or.inl hreserved) (hfree name hin).1
  · intro name hname
    rw [hperm.mem_iff, List.mem_append, List.mem_append] at hname
    rcases hname with hhelper | hin | hin
    · obtain ⟨hok, hnot, _⟩ := RouteHelpers.helperNames_ok name (hhelpers name hhelper)
      exact ⟨hok, hnot⟩
    · obtain ⟨claimant, hclaimant, rfl⟩ := List.mem_map.mp hin
      obtain ⟨hok, hnot⟩ := hdeclared claimant hclaimant
      exact ⟨hok, fun hmem => hnot (hglobal _ hmem)⟩
    · refine ⟨RouteDef.isIdentifier_of_mem_declaredNames hvalid name hin, fun hmem => ?_⟩
      exact hsound.owner?_ne_none (Or.inl (hglobal name hmem)) (hfree name hin).1

/-- A route that sends a model and receives another. -/
def exchangeRoute : RouteDef :=
  ⟨"join_org", none, .post, "/orgs/join", none, some ⟨"app.User"⟩, some ⟨"app.Org"⟩⟩

theorem generate_declares_distinct_names_exchange :
    ∃ generated module, generate TypeIndex.mutualGraph [] [exchangeRoute] = .ok generated ∧
      generated.code = TypeScript.Module.print module ∧ module.declaredNames.Nodup := by
  have hok : (generate TypeIndex.mutualGraph [] [exchangeRoute]).toOption.isSome = true := by
    have hroots : withRouteModels [] [exchangeRoute] = [⟨"app.User"⟩, ⟨"app.Org"⟩] := by
      decide +kernel
    simp only [generate, indexFor, hroots, TypeIndex.register, TypeIndex.addRoots,
      TypeIndex.addRoot, TypeIndex.visit_eq_visitWithin]
    decide +kernel
  obtain ⟨generated, hgenerated⟩ := exists_ok_of_isSome hok
  obtain ⟨_, module, _, _, hcode, hnodup, _⟩ := generate_declares_distinct_names hgenerated
  exact ⟨generated, module, hgenerated, hcode, hnodup⟩

end SchemaWire
