import SchemaWire.Proofs.Index.Operations

/-!
How an index grows. A root puts what is new behind what is there: no entry of any part of the
index moves, changes or is repeated, enums lose no value, and a name leads to the same object type
as before. A root that is declared already changes nothing, whatever the graph says about it. The
main statement is that this holds after any history of an index.
-/
namespace SchemaWire

namespace EnumRegistry

/-- The enums keep all their values, and more may come. -/
theorem values?_foldl_add {tags : List (EnumTag × Descriptor)} {registry : EnumRegistry}
    {name : String} {values : List String} (h : registry.values? name = some values) :
    ∃ grown, (tags.foldl (fun enums tag => enums.add tag.1) registry).values? name = some grown ∧
      values ⊆ grown := by
  obtain ⟨before, hbefore, rfl⟩ := Option.map_eq_some_iff.mp h
  have hname : name ∈ (tags.foldl (fun enums tag => enums.add tag.1) registry).names :=
    mem_names_foldl.mpr (Or.inl (SortedMap.mem_keys_iff.mpr ⟨before, hbefore⟩))
  obtain ⟨after, hafter⟩ := SortedMap.mem_keys_iff.mp hname
  refine ⟨after.keys, by rw [values?, hafter]; rfl, fun value hvalue => ?_⟩
  obtain ⟨found, hfound, hmem⟩ := lists_foldl.mpr (Or.inl ⟨before, hbefore, hvalue⟩)
  rw [Option.some.inj (hafter.symm.trans hfound)]
  exact hmem

end EnumRegistry

namespace Scope

/-- The scope `next` has further owners behind those of `scope`, each under a name of its own. -/
structure Appends (scope next : Scope) : Prop where
  owners : scope.owners <+: next.owners
  nodup : (scope.owners.map Prod.fst).Nodup → (next.owners.map Prod.fst).Nodup

namespace Appends

variable {scope middle next : Scope}

theorem refl (scope : Scope) : scope.Appends scope :=
  ⟨List.prefix_rfl, id⟩

theorem trans (hfirst : scope.Appends middle) (hsecond : middle.Appends next) :
    scope.Appends next :=
  ⟨hfirst.owners.trans hsecond.owners, fun hnodup => hsecond.nodup (hfirst.nodup hnodup)⟩

theorem withEnums (h : scope.Appends next) (enums : EnumRegistry) :
    scope.Appends { next with enums } :=
  ⟨h.owners, h.nodup⟩

/-- A claim puts a name without owner last. -/
theorem of_claim {name owner : String} (h : scope.claim name owner = .ok next) :
    scope.Appends next := by
  unfold claim at h
  split at h
  · rename_i hnone
    cases h
    refine ⟨List.prefix_append _ _, fun hnodup => ?_⟩
    have hnot : name ∉ scope.owners.map Prod.fst := by
      rw [← exists_lookup_iff_mem_keys]
      rintro ⟨text, htext⟩
      exact Option.some_ne_none text (htext.symm.trans hnone)
    rw [List.map_append, List.nodup_append]
    refine ⟨hnodup, List.nodup_singleton _, ?_⟩
    rintro other hother _ hname rfl
    rw [List.mem_singleton.mp hname] at hother
    exact hnot hother
  · split at h <;> cases h
    exact refl _

theorem of_declareTags {tags : List (EnumTag × Descriptor)}
    (h : scope.declareTags tags = .ok next) : scope.Appends next := by
  induction tags generalizing scope with
  | nil =>
      cases h
      exact refl _
  | cons head rest ih =>
      obtain ⟨middle, hmiddle, hrest⟩ := bind_eq_ok_iff.mp h
      obtain ⟨_, claimed, hclaim, rfl⟩ := declareTag_eq_ok_iff.mp hmiddle
      exact ((of_claim hclaim).withEnums _).trans (ih hrest)

theorem of_declareFields {model : String} {fields : List FieldDef} {declared : List ObjectField}
    (h : scope.declareFields model fields = .ok (next, declared)) : scope.Appends next := by
  induction fields generalizing scope declared with
  | nil =>
      cases h
      exact refl _
  | cons field rest ih =>
      obtain ⟨_, tagged, others, _, htagged, hrest, _⟩ := declareFields_cons_eq_ok_iff.mp h
      exact (of_declareTags htagged).trans (ih hrest)

theorem of_declareModel {path : ModelPath} {model : ModelDef} {object : ObjectType}
    (h : scope.declareModel path model = .ok (next, object)) : scope.Appends next := by
  obtain ⟨_, named, fromNamed, toNamed, fields, hnamed, hfrom, hto, hfields, _⟩ :=
    declareModel_eq_ok_iff.mp h
  exact (of_claim hnamed).trans
    ((of_claim hfrom).trans ((of_claim hto).trans (of_declareFields hfields)))

end Appends

end Scope

namespace TypeIndex

variable {graph : ModelGraph} {index next : TypeIndex}

theorem scope_appends_of_declare {path : ModelPath} {object : ObjectType}
    (h : declare graph path index = .ok (next, object)) : index.scope.Appends next.scope := by
  obtain ⟨model, _, h⟩ := bind_eq_ok_iff.mp h
  obtain ⟨⟨scope, declared⟩, hdeclared, h⟩ := bind_eq_ok_iff.mp h
  cases pure_eq_ok_iff.mp h
  exact .of_declareModel hdeclared

theorem scope_appends_of_visit {pending : List ModelPath}
    (h : visit graph pending index = .ok next) : index.scope.Appends next.scope := by
  fun_induction visit graph pending index with
  | case1 index =>
      cases h
      exact .refl _
  | case2 path pending index _ ih => exact ih h
  | case3 => cases h
  | case4 path pending index _ middle object hdeclare ih =>
      exact (scope_appends_of_declare hdeclare).trans (ih h)

theorem scope_appends_of_addRoot {root : ModelPath}
    (h : addRoot graph root index = .ok next) : index.scope.Appends next.scope := by
  obtain ⟨visited, hvisit, h⟩ := bind_eq_ok_iff.mp h
  obtain ⟨functions, _, h⟩ := bind_eq_ok_iff.mp h
  cases pure_eq_ok_iff.mp h
  change index.scope.Appends visited.scope
  exact scope_appends_of_visit hvisit

/-- No name is owned twice in an index that roots and claims have led to. -/
theorem nodup_owners_of_performAll {operations : List Operation}
    (hindex : (index.scope.owners.map Prod.fst).Nodup)
    (h : index.performAll operations = .ok next) : (next.scope.owners.map Prod.fst).Nodup := by
  induction operations generalizing index with
  | nil =>
      cases h
      exact hindex
  | cons operation rest ih =>
      obtain ⟨middle, hmiddle, hrest⟩ := bind_eq_ok_iff.mp h
      refine ih ?_ hrest
      cases operation with
      | addRoot graph root => exact (scope_appends_of_addRoot hmiddle).nodup hindex
      | claim name owner =>
          rw [perform] at hmiddle
          split at hmiddle
          · rename_i claimed hclaim
            cases hmiddle
            obtain ⟨scope, hscope, hclaim⟩ := bind_eq_ok_iff.mp hclaim
            cases pure_eq_ok_iff.mp hclaim
            exact (Scope.Appends.of_claim hscope).nodup hindex
          · cases hmiddle
            exact hindex

theorem nodup_owners_empty : (empty.scope.owners.map Prod.fst).Nodup := by
  decide

/-- The index `next` holds the entries of `index` as they are and where they are, and others
behind them under keys of their own. -/
structure Appends (index next : TypeIndex) : Prop where
  objects : index.objects <+: next.objects
  byName : index.byName <+: next.byName
  fromWire : index.fromWire <+: next.fromWire
  toWire : index.toWire <+: next.toWire
  owners : index.scope.owners <+: next.scope.owners
  nodup_objects : (next.objects.map Prod.fst).Nodup
  nodup_byName : (next.byName.map Prod.fst).Nodup
  nodup_fromWire : (next.fromWire.map Prod.fst).Nodup
  nodup_toWire : (next.toWire.map Prod.fst).Nodup
  nodup_owners : (next.scope.owners.map Prod.fst).Nodup
  values : ∀ name values, index.enums.values? name = some values →
    ∃ grown, next.enums.values? name = some grown ∧ values ⊆ grown
  objectByName?_eq : ∀ name ∈ index.byName.map Prod.fst,
    next.objectByName? name = index.objectByName? name

theorem Consistent.appends_addRoot (hindex : index.Consistent)
    (howners : (index.scope.owners.map Prod.fst).Nodup) {root : ModelPath}
    (h : TypeIndex.addRoot graph root index = .ok next) : index.Appends next := by
  have hnext := hindex.addRoot h
  have hscope := scope_appends_of_addRoot h
  have hnames : (next.byName.map Prod.fst).Nodup := by
    rw [hnext.names_eq]
    exact hnext.nodup_shortNames
  obtain ⟨visited, added, fromNew, toNew, hadded, _, _, _, rfl⟩ := addRoot_ok h
  have hobjects : index.objects <+: visited.objects := by
    rw [hadded.objects_eq]
    exact List.prefix_append _ _
  refine ⟨hobjects, ?_, List.prefix_append _ _, List.prefix_append _ _, hscope.owners, hnext.nodup,
    hnames, ?_, ?_, hscope.nodup howners, ?_, ?_⟩
  · rw [hindex.byName_eq, hnext.byName_eq]
    exact hobjects.map _
  · rw [hnext.fromWire.paths_eq]
    exact hnext.nodup
  · rw [hnext.toWire.paths_eq]
    exact hnext.nodup
  · intro name values hvalues
    change ∃ grown, visited.enums.values? name = some grown ∧ _
    rw [hadded.enums_eq]
    exact EnumRegistry.values?_foldl_add hvalues
  · intro name hname
    rw [hindex.byName_eq, List.map_map] at hname
    obtain ⟨entry, hentry, rfl⟩ := List.mem_map.mp hname
    have hobject := hindex.object?_eq_some_iff.mpr hentry
    have hbefore := hindex.objectByName?_eq_some_iff.mpr ⟨entry.1, hobject, rfl⟩
    have hafter := hnext.objectByName?_eq_some_iff.mpr
      ⟨entry.1, hadded.extends entry.1 entry.2 hobject, rfl⟩
    exact hafter.trans hbefore.symm

/-- Nothing is done for a root that is declared. -/
theorem addRoot_of_mem_paths {root : ModelPath} (hroot : root ∈ index.paths) :
    addRoot graph root index = .ok index := by
  have hvisit : visit graph [root] index = .ok index := by
    rw [visit, if_pos (mem_paths_iff.mp hroot), visit]
  have hnone : index.paths.drop index.size = [] := by
    rw [size, paths, ← List.length_map Prod.fst, List.drop_length]
  rw [addRoot, hvisit]
  simp [bind, Except.bind, hnone, wireFunctions, pure, Except.pure]

/-- Whatever the history of an index, a root that is added leaves all entries of the index as they
are and puts new ones behind them; a root that is declared already leaves the whole index as it
is, also if the graph defines it in another way or not at all. -/
theorem performAll_addRoot_appends {operations : List Operation}
    (h : empty.performAll operations = .ok index) (graph : ModelGraph) (root : ModelPath) :
    (∀ next, addRoot graph root index = .ok next → index.Appends next) ∧
      (root ∈ index.paths → addRoot graph root index = .ok index) := by
  have hindex := consistent_empty.performAll h
  have howners := nodup_owners_of_performAll nodup_owners_empty h
  exact ⟨fun next hnext => hindex.appends_addRoot howners hnext, addRoot_of_mem_paths⟩

/-- A history after which users are known as one graph has them. -/
def orgHistory : List Operation :=
  [.claim "Team" "somebody else", .addRoot mutualGraph ⟨"app.Org"⟩, .claim "User" "somebody else"]

/-- The administrator of another graph comes behind the users. A user as that graph has it, or one
that an empty graph does not have, changes nothing. -/
theorem performAll_addRoot_appends_admin :
    ∃ index next, empty.performAll orgHistory = .ok index ∧
      addRoot adminGraph ⟨"app.Admin"⟩ index = .ok next ∧ index.Appends next ∧ next.size = 3 ∧
      addRoot adminGraph ⟨"app.User"⟩ index = .ok index ∧
      addRoot .empty ⟨"app.User"⟩ index = .ok index := by
  have hok : ((empty.performAll orgHistory).toOption.bind fun index =>
      (addRoot adminGraph ⟨"app.Admin"⟩ index).toOption.map fun next =>
        (index.paths, next.size)) = some ([⟨"app.Org"⟩, ⟨"app.User"⟩], 3) := by
    simp only [performAll, perform, orgHistory, addRoot, visit_eq_visitWithin]
    decide
  obtain ⟨index, hindex, hok⟩ := Option.bind_eq_some_iff.mp hok
  obtain ⟨next, hnext, hpair⟩ := Option.map_eq_some_iff.mp hok
  have hindex := toOption_eq_some_iff.mp hindex
  have hnext := toOption_eq_some_iff.mp hnext
  have huser : ⟨"app.User"⟩ ∈ index.paths := by
    rw [(Prod.mk.inj hpair).1]
    decide
  exact ⟨index, next, hindex, hnext,
    (performAll_addRoot_appends hindex adminGraph ⟨"app.Admin"⟩).1 next hnext,
    (Prod.mk.inj hpair).2, (performAll_addRoot_appends hindex adminGraph ⟨"app.User"⟩).2 huser,
    (performAll_addRoot_appends hindex .empty ⟨"app.User"⟩).2 huser⟩

end TypeIndex

end SchemaWire
