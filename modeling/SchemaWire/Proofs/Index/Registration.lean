import SchemaWire.Proofs.Descriptor.Rendered
import SchemaWire.Proofs.Entries
import SchemaWire.Proofs.Index.Visit
import SchemaWire.Proofs.Wire.Conversion

/-!
What a registration gives. The declared models are the ones reachable from the roots, in
depth-first preorder; each is declared once, as the graph defines it, with two conversion functions
that return its fields. An index stays sound when a root is added, also one of another graph.
-/
namespace SchemaWire

open TypeScript (isIdentifier Expr ObjectEntry)

/-- The function returns an object literal with these keys, in this order. -/
def WireFunction.Returns (function : WireFunction) (keys : List String) : Prop :=
  ∃ entries, function.declared.body = [.ret (some (.object entries))] ∧
    List.Forall₂ (fun key entry => ∃ value, entry = ObjectEntry.property key value) keys entries

namespace TypeIndex

/-- The functions are the conversions of the paths in one direction, in order. -/
def Builds (index : TypeIndex) (dir : Direction) (paths : List ModelPath)
    (functions : List (ModelPath × WireFunction)) : Prop :=
  List.Forall₂ (fun path entry => entry.1 = path ∧ index.wireFunction dir path = .ok entry.2)
    paths functions

theorem Builds.extend {index next : TypeIndex} {dir : Direction} {paths : List ModelPath}
    {functions : List (ModelPath × WireFunction)} (h : index.Builds dir paths functions)
    (hextends : index.Extends next) : next.Builds dir paths functions :=
  h.imp fun _ _ ⟨hpath, hfunction⟩ => ⟨hpath, hextends.wireFunction hfunction⟩

theorem Builds.append {index : TypeIndex} {dir : Direction} {first second : List ModelPath}
    {before after : List (ModelPath × WireFunction)} (hfirst : index.Builds dir first before)
    (hsecond : index.Builds dir second after) :
    index.Builds dir (first ++ second) (before ++ after) :=
  List.rel_append hfirst hsecond

theorem Builds.paths_eq {index : TypeIndex} {dir : Direction} {paths : List ModelPath}
    {functions : List (ModelPath × WireFunction)} (h : index.Builds dir paths functions) :
    functions.map Prod.fst = paths := by
  induction h with
  | nil => rfl
  | cons hhead _ ih => rw [List.map_cons, hhead.1, ih]

theorem Builds.lookup {index : TypeIndex} {dir : Direction} {paths : List ModelPath}
    {functions : List (ModelPath × WireFunction)} (h : index.Builds dir paths functions)
    {path : ModelPath} (hmem : path ∈ paths) :
    ∃ function, functions.lookup path = some function ∧
      index.wireFunction dir path = .ok function := by
  induction h with
  | nil => cases hmem
  | @cons first entry paths functions hhead _ ih =>
      obtain ⟨rfl, hfunction⟩ := hhead
      by_cases hpath : path = entry.1
      · subst hpath
        exact ⟨entry.2, List.lookup_cons_self, hfunction⟩
      · obtain ⟨function, hlookup, hok⟩ := ih ((List.mem_cons.mp hmem).resolve_left hpath)
        refine ⟨function, ?_, hok⟩
        rw [List.lookup_cons, beq_eq_false_iff_ne.mpr hpath]
        exact hlookup

theorem Builds.exists_of_mem {index : TypeIndex} {dir : Direction} {paths : List ModelPath}
    {functions : List (ModelPath × WireFunction)} (h : index.Builds dir paths functions) :
    ∀ entry ∈ functions, ∃ path ∈ paths, index.wireFunction dir path = .ok entry.2 := by
  intro entry hentry
  obtain ⟨path, hpath, _, hfunction⟩ := exists_left_of_forall₂ h entry hentry
  exact ⟨path, hpath, hfunction⟩

theorem exists_builds {index : TypeIndex} {dir : Direction} {paths : List ModelPath}
    (h : ∀ path ∈ paths, ∃ function, index.wireFunction dir path = .ok function) :
    ∃ functions, index.Builds dir paths functions := by
  induction paths with
  | nil => exact ⟨[], .nil⟩
  | cons path rest ih =>
      obtain ⟨function, hfunction⟩ := h path List.mem_cons_self
      obtain ⟨functions, hrest⟩ := ih fun other hother => h other (List.mem_cons_of_mem _ hother)
      exact ⟨(path, function) :: functions, .cons ⟨rfl, hfunction⟩ hrest⟩

theorem wireFunctions_eq_ok_iff {index : TypeIndex} {paths : List ModelPath}
    {fromFunctions toFunctions : List (ModelPath × WireFunction)} :
    index.wireFunctions paths = .ok (fromFunctions, toFunctions) ↔
      index.Builds .fromWire paths fromFunctions ∧ index.Builds .toWire paths toFunctions := by
  induction paths generalizing fromFunctions toFunctions with
  | nil => simp [wireFunctions, Builds, eq_comm]
  | cons path rest ih =>
      rw [wireFunctions, bind_eq_ok_iff]
      constructor
      · rintro ⟨fromFunction, hfrom, h⟩
        obtain ⟨toFunction, hto, h⟩ := bind_eq_ok_iff.mp h
        obtain ⟨⟨fromRest, toRest⟩, hrest, h⟩ := bind_eq_ok_iff.mp h
        cases pure_eq_ok_iff.mp h
        obtain ⟨hfromRest, htoRest⟩ := ih.mp hrest
        exact ⟨.cons ⟨rfl, hfrom⟩ hfromRest, .cons ⟨rfl, hto⟩ htoRest⟩
      · rintro ⟨hfroms, htos⟩
        obtain _ | @⟨_, ⟨_, fromFunction⟩, _, fromRest, ⟨rfl, hfrom⟩, hfromRest⟩ := hfroms
        obtain _ | @⟨_, ⟨_, toFunction⟩, _, toRest, ⟨rfl, hto⟩, htoRest⟩ := htos
        refine ⟨fromFunction, hfrom, bind_eq_ok_iff.mpr ⟨toFunction, hto, ?_⟩⟩
        exact bind_eq_ok_iff.mpr ⟨(fromRest, toRest), ih.mpr ⟨hfromRest, htoRest⟩, rfl⟩

theorem Added.extends {graph : ModelGraph} {index next : TypeIndex}
    {added : List (ModelPath × ObjectType)} (h : Added graph index next added) :
    index.Extends next := by
  intro path object hobject
  unfold object? at hobject ⊢
  rw [h.objects_eq, List.lookup_append, hobject]
  rfl

/-- What adding a root does: the models first met from it are declared in order, then their
conversion functions are built. -/
theorem addRoot_ok {graph : ModelGraph} {root : ModelPath} {index next : TypeIndex}
    (h : addRoot graph root index = .ok next) :
    ∃ visited added fromNew toNew, Added graph index visited added ∧
      Preorder graph.references index.paths [root] (added.map Prod.fst) ∧
      visited.Builds .fromWire (added.map Prod.fst) fromNew ∧
      visited.Builds .toWire (added.map Prod.fst) toNew ∧
      next = { visited with
        fromWire := index.fromWire ++ fromNew, toWire := index.toWire ++ toNew } := by
  rw [addRoot, bind_eq_ok_iff] at h
  obtain ⟨visited, hvisit, h⟩ := h
  obtain ⟨⟨fromNew, toNew⟩, hfunctions, h⟩ := bind_eq_ok_iff.mp h
  cases pure_eq_ok_iff.mp h
  obtain ⟨added, hadded, horder⟩ := visit_ok hvisit
  have hnew : visited.paths.drop index.size = added.map Prod.fst := by
    rw [hadded.paths_eq, size, ← List.length_map Prod.fst]
    exact List.drop_left
  rw [hnew] at hfunctions
  obtain ⟨hfrom, hto⟩ := wireFunctions_eq_ok_iff.mp hfunctions
  refine ⟨visited, added, fromNew, toNew, hadded, horder, hfrom, hto, ?_⟩
  rw [hadded.fromWire_eq, hadded.toWire_eq]

/-- What holds of an index whichever graphs its models come from and whatever else is claimed. -/
structure Consistent (index : TypeIndex) : Prop where
  nodup : index.paths.Nodup
  named : ∀ entry ∈ index.objects, entry.2.name = entry.1.shortName
  valid : ∀ entry ∈ index.objects, isIdentifier entry.1.shortName = true
  checked : ∀ entry ∈ index.objects, ∀ tag ∈ entry.2.enumTags, tag.1.check tag.2 = .ok ()
  wellFormed : ∀ entry ∈ index.objects, ∀ field ∈ entry.2.fields, field.descriptor.WellFormed
  rendered : ∀ entry ∈ index.objects, ∀ field ∈ entry.2.fields, field.ty = field.descriptor.render
  closed : ∀ entry ∈ index.objects, ∀ path ∈ entry.2.references, path ∈ index.paths
  owned : index.scope.Holds (claimants index.objects)
  byName_eq : index.byName = index.objects.map fun entry => (entry.2.name, entry.1)
  enums_eq : index.enums = (index.objects.flatMap fun entry => entry.2.enumTags).foldl
    (fun enums tag => enums.add tag.1) EnumRegistry.empty
  fromWire : index.Builds .fromWire index.paths index.fromWire
  toWire : index.Builds .toWire index.paths index.toWire

/-- A consistent index in which nobody else has claimed a name. -/
structure Sound (index : TypeIndex) : Prop extends Consistent index where
  grown : Scope.initial.Grown index.scope (claimants index.objects)

theorem consistent_empty : empty.Consistent := by
  refine ⟨List.nodup_nil, ?_, ?_, ?_, ?_, ?_, ?_, ?_, rfl, rfl, .nil, .nil⟩ <;>
    simp [empty, claimants, Scope.Holds]

theorem sound_empty : empty.Sound :=
  ⟨consistent_empty, Scope.Grown.refl _⟩

theorem model_mem_claimants {objects : List (ModelPath × ObjectType)}
    {entry : ModelPath × ObjectType} (hmem : entry ∈ objects) :
    .model entry.1 ∈ claimants objects :=
  List.mem_flatMap.mpr ⟨entry, hmem, List.mem_cons_self⟩

/-- Models that all own their names have different names. -/
theorem nodup_names_of_holds {scope : Scope} {objects : List (ModelPath × ObjectType)}
    (hholds : scope.Holds (claimants objects)) (hnodup : (objects.map Prod.fst).Nodup)
    (hnamed : ∀ entry ∈ objects, entry.2.name = entry.1.shortName) :
    (objects.map fun entry => entry.2.name).Nodup := by
  refine hnodup.of_map.map_on fun first hfirst second hsecond hname => ?_
  have hfirstOwner := hholds _ (model_mem_claimants hfirst)
  have hsecondOwner := hholds _ (model_mem_claimants hsecond)
  have hshort : first.1.shortName = second.1.shortName := by
    rw [← hnamed first hfirst, hname, hnamed second hsecond]
  have htext : some first.1.text = some second.1.text := calc
    some first.1.text = scope.owner? first.1.shortName := hfirstOwner.symm
    _ = scope.owner? second.1.shortName := by rw [hshort]
    _ = some second.1.text := hsecondOwner
  exact List.inj_on_of_nodup_map hnodup hfirst hsecond
    (congrArg ModelPath.mk (Option.some.inj htext))

/-- Names that are not there yet are put last, one after the other. -/
theorem putNames_of_nodup {names : List (String × ModelPath)}
    {objects : List (ModelPath × ObjectType)}
    (hnodup : (names.map Prod.fst ++ objects.map fun entry => entry.2.name).Nodup) :
    putNames names objects = names ++ objects.map fun entry => (entry.2.name, entry.1) := by
  induction objects generalizing names with
  | nil => simp [putNames]
  | cons entry rest ih =>
      have hnot : entry.2.name ∉ names.map Prod.fst := fun hmem =>
        List.disjoint_of_nodup_append hnodup hmem List.mem_cons_self
      have hrest := @ih (names ++ [(entry.2.name, entry.1)]) (by simpa using hnodup)
      rw [putNames, List.foldl_cons, putEntry_of_not_mem hnot]
      simpa [putNames] using hrest

/-- Whatever holds of the objects of an index and of everything that a graph declares holds after
an addition. -/
theorem Added.forall_objects {graph : ModelGraph} {index next : TypeIndex}
    {added : List (ModelPath × ObjectType)} {holds : ModelPath × ObjectType → Prop}
    (h : Added graph index next added) (hold : ∀ entry ∈ index.objects, holds entry)
    (hnew : ∀ entry, graph.Declares entry.1 entry.2 → holds entry) :
    ∀ entry ∈ next.objects, holds entry := by
  intro entry hentry
  rw [h.objects_eq] at hentry
  rcases List.mem_append.mp hentry with hin | hin
  · exact hold entry hin
  · exact hnew entry (h.declares entry hin)

/-- The paths of the index stay different from each other, as a traversal meets new paths only. -/
theorem Added.nodup {graph : ModelGraph} {pending : List ModelPath} {index next : TypeIndex}
    {added : List (ModelPath × ObjectType)} (h : Added graph index next added)
    (horder : Preorder graph.references index.paths pending (added.map Prod.fst))
    (hnodup : index.paths.Nodup) : next.paths.Nodup := by
  rw [h.paths_eq, List.nodup_append]
  refine ⟨hnodup, horder.nodup, ?_⟩
  rintro path hold _ hnew rfl
  exact horder.not_mem_seen path hnew hold

/-- What the added models refer to was declared before or is added with them. -/
theorem Added.closed {graph : ModelGraph} {pending : List ModelPath} {index next : TypeIndex}
    {added : List (ModelPath × ObjectType)} (h : Added graph index next added)
    (horder : Preorder graph.references index.paths pending (added.map Prod.fst))
    (hclosed : ∀ entry ∈ index.objects, ∀ path ∈ entry.2.references, path ∈ index.paths) :
    ∀ entry ∈ next.objects, ∀ path ∈ entry.2.references, path ∈ next.paths := by
  intro entry hentry path hpath
  rw [h.paths_eq]
  rw [h.objects_eq] at hentry
  rcases List.mem_append.mp hentry with hold | hnew
  · exact List.mem_append_left _ (hclosed entry hold path hpath)
  · rw [← (h.declares entry hnew).references_eq] at hpath
    exact horder.next_subset entry.1 (List.mem_map_of_mem hnew) path hpath

/-- The functions of the added models complete those built before. -/
theorem Added.builds {graph : ModelGraph} {dir : Direction} {index next : TypeIndex}
    {added : List (ModelPath × ObjectType)} {before after : List (ModelPath × WireFunction)}
    (h : Added graph index next added) (hbefore : index.Builds dir index.paths before)
    (hafter : next.Builds dir (added.map Prod.fst) after) :
    next.Builds dir next.paths (before ++ after) := by
  rw [h.paths_eq]
  exact (hbefore.extend h.extends).append hafter

/-- Adding a root of any graph keeps an index consistent. -/
theorem Consistent.addRoot {graph : ModelGraph} {root : ModelPath} {index next : TypeIndex}
    (hindex : index.Consistent) (h : TypeIndex.addRoot graph root index = .ok next) :
    next.Consistent := by
  obtain ⟨visited, added, fromNew, toNew, hadded, horder, hfrom, hto, rfl⟩ := addRoot_ok h
  have hnodup : visited.paths.Nodup := hadded.nodup horder hindex.nodup
  have hnamed := hadded.forall_objects hindex.named fun _ hdeclares => hdeclares.name_eq
  have howned : visited.scope.Holds (claimants visited.objects) := by
    rw [hadded.objects_eq, claimants, List.flatMap_append]
    exact hadded.grown.holds hindex.owned
  refine ⟨hnodup, hnamed, ?_, ?_, ?_, ?_, ?_, howned, ?_, ?_, ?_, ?_⟩
  · exact hadded.forall_objects hindex.valid fun _ hdeclares => hdeclares.valid
  · exact hadded.forall_objects hindex.checked fun _ hdeclares => hdeclares.checked
  · exact hadded.forall_objects hindex.wellFormed fun _ hdeclares _ => hdeclares.wellFormed
  · exact hadded.forall_objects hindex.rendered fun _ hdeclares _ => hdeclares.rendered
  · exact hadded.closed horder hindex.closed
  · have hnames := nodup_names_of_holds howned hnodup hnamed
    change visited.byName = visited.objects.map _
    rw [hadded.objects_eq, List.map_append] at hnames
    rw [hadded.byName_eq, hadded.objects_eq, List.map_append, hindex.byName_eq]
    refine putNames_of_nodup ?_
    simpa [Function.comp_def] using hnames
  · change visited.enums = _
    rw [hadded.enums_eq, hadded.objects_eq, List.flatMap_append, List.foldl_append,
      ← hindex.enums_eq]
  -- the functions were built before they were put into the index
  · exact (hadded.builds hindex.fromWire hfrom).extend fun _ _ hobject => hobject
  · exact (hadded.builds hindex.toWire hto).extend fun _ _ hobject => hobject

/-- Adding a root keeps an index sound. -/
theorem Sound.addRoot {graph : ModelGraph} {root : ModelPath} {index next : TypeIndex}
    (hsound : index.Sound) (h : TypeIndex.addRoot graph root index = .ok next) : next.Sound := by
  refine ⟨hsound.toConsistent.addRoot h, ?_⟩
  obtain ⟨visited, added, fromNew, toNew, hadded, _, _, _, rfl⟩ := addRoot_ok h
  change Scope.initial.Grown visited.scope (claimants visited.objects)
  rw [hadded.objects_eq, claimants, List.flatMap_append]
  exact hsound.grown.trans hadded.grown

/-- The index declares, in depth-first preorder, what is reachable from the roots in the graph. -/
structure Covers (graph : ModelGraph) (roots : List ModelPath) (index : TypeIndex) : Prop where
  order : Preorder graph.references [] roots index.paths
  declares : ∀ entry ∈ index.objects, graph.Declares entry.1 entry.2

theorem Covers.object_declares {graph : ModelGraph} {roots : List ModelPath} {index : TypeIndex}
    (h : Covers graph roots index) {path : ModelPath} {object : ObjectType}
    (hobject : index.object? path = some object) : graph.Declares path object :=
  h.declares _ (mem_objects_of_object? hobject)

theorem Covers.added {graph : ModelGraph} {roots : List ModelPath} {root : ModelPath}
    {index next : TypeIndex} {added : List (ModelPath × ObjectType)}
    (hcovers : Covers graph roots index) (hadded : Added graph index next added)
    (horder : Preorder graph.references index.paths [root] (added.map Prod.fst)) :
    Covers graph (roots ++ [root]) next := by
  refine ⟨?_, hadded.forall_objects hcovers.declares fun _ hdeclares => hdeclares⟩
  rw [hadded.paths_eq]
  exact hcovers.order.append horder

theorem Covers.addRoot {graph : ModelGraph} {roots : List ModelPath} {root : ModelPath}
    {index next : TypeIndex} (hcovers : Covers graph roots index)
    (h : TypeIndex.addRoot graph root index = .ok next) : Covers graph (roots ++ [root]) next := by
  obtain ⟨visited, added, fromNew, toNew, hadded, horder, _, _, rfl⟩ := addRoot_ok h
  have hvisited := hcovers.added hadded horder
  exact ⟨hvisited.order, hvisited.declares⟩

/-- What a declared model refers to is declared. -/
theorem Covers.closed {graph : ModelGraph} {roots : List ModelPath} {index : TypeIndex}
    (h : Covers graph roots index) {path child : ModelPath} (hpath : path ∈ index.paths)
    (hchild : child ∈ graph.references path) : child ∈ index.paths := by
  simpa using h.order.next_subset path hpath child hchild

theorem addRoots_ok {graph : ModelGraph} {before roots : List ModelPath} {index next : TypeIndex}
    (hsound : index.Sound) (hcovers : Covers graph before index)
    (h : addRoots graph roots index = .ok next) :
    next.Sound ∧ Covers graph (before ++ roots) next := by
  induction roots generalizing before index with
  | nil =>
      cases h
      exact ⟨hsound, by simpa using hcovers⟩
  | cons root rest ih =>
      obtain ⟨middle, hroot, hrest⟩ := bind_eq_ok_iff.mp h
      simpa using ih (hsound.addRoot hroot) (hcovers.addRoot hroot) hrest

/-- A registration gives a sound index that covers the roots. -/
theorem register_ok {graph : ModelGraph} {roots : List ModelPath} {index : TypeIndex}
    (h : register graph roots = .ok index) : index.Sound ∧ Covers graph roots index :=
  addRoots_ok sound_empty ⟨.done [], by simp [empty]⟩ h

def function? (index : TypeIndex) : Direction → ModelPath → Option WireFunction
  | .fromWire, path => index.fromWire? path
  | .toWire, path => index.toWire? path

namespace Consistent

variable {index : TypeIndex} {path : ModelPath} {object : ObjectType} {field : ObjectField}

theorem object?_eq_some_iff (h : index.Consistent) :
    index.object? path = some object ↔ (path, object) ∈ index.objects :=
  lookup_eq_some_iff_mem h.nodup

/-- Every declared model has its function in each direction. -/
theorem exists_function (h : index.Consistent) (hmem : path ∈ index.paths) (dir : Direction) :
    ∃ function, index.function? dir path = some function ∧
      index.wireFunction dir path = .ok function := by
  cases dir with
  | fromWire => exact h.fromWire.lookup hmem
  | toWire => exact h.toWire.lookup hmem

/-- The type of a declared field uses built-in names and those of declared models. -/
theorem name_mem_fieldTy (hindex : index.Consistent) (hobject : index.object? path = some object)
    (hfield : field ∈ object.fields) {word : String} (hword : .name word ∈ field.ty.atoms) :
    word ∈ ["Array", "Date", "Record"] ∨ ∃ other ∈ index.paths, other.shortName = word := by
  have hmem := mem_objects_of_object? hobject
  rw [hindex.rendered _ hmem field hfield] at hword
  refine (Descriptor.name_mem_atoms_render hword).imp_right ?_
  rintro ⟨other, hnames, rfl⟩
  refine ⟨other, hindex.closed _ hmem other (List.mem_flatMap.mpr ⟨field, hfield, ?_⟩), rfl⟩
  exact (Descriptor.mem_models_iff_names (hindex.wellFormed _ hmem field hfield)).mpr hnames

/-- The texts in the type of a declared field are those of the string literals inside it. -/
theorem text_mem_fieldTy (hindex : index.Consistent) (hobject : index.object? path = some object)
    (hfield : field ∈ object.fields) {text : String} :
    .text text ∈ field.ty.atoms ↔ (Descriptor.literal (.str text)).Part field.descriptor := by
  rw [hindex.rendered _ (mem_objects_of_object? hobject) field hfield,
    Descriptor.text_mem_atoms_render]

end Consistent

/-- Every conversion function of a consistent index converts a declared object type. -/
theorem Consistent.converts {index : TypeIndex} (h : index.Consistent)
    {entry : ModelPath × WireFunction} (hentry : entry ∈ index.fromWire ++ index.toWire) :
    ∃ dir path object entries, index.object? path = some object ∧
      index.Converts dir object entry.2 entries := by
  rcases List.mem_append.mp hentry with hfrom | hto
  · obtain ⟨path, _, hfunction⟩ := h.fromWire.exists_of_mem entry hfrom
    exact ⟨.fromWire, path, wireFunction_ok hfunction⟩
  · obtain ⟨path, _, hfunction⟩ := h.toWire.exists_of_mem entry hto
    exact ⟨.toWire, path, wireFunction_ok hfunction⟩

theorem Converts.returns {index : TypeIndex} {dir : Direction} {object : ObjectType}
    {function : WireFunction} {entries : List ObjectEntry}
    (h : index.Converts dir object function entries) :
    function.Returns (object.fields.map ObjectField.name) := by
  refine ⟨entries, h.body_eq, ?_⟩
  rw [List.forall₂_map_left_iff]
  exact (convertFields_eq_ok_iff.mp h.entries_ok).imp fun _ _ ⟨value, _, heq⟩ => ⟨value, heq⟩

/-- A registration declares the models reachable from the roots and no others, each once and in
depth-first preorder. Every declared object type has the fields of its model, and both of its
conversion functions return an object with these fields. -/
theorem register_declares_reachable {graph : ModelGraph} {roots : List ModelPath}
    {index : TypeIndex} (h : register graph roots = .ok index) :
    index.paths.Nodup ∧
      (∀ path, path ∈ index.paths ↔ Reachable graph.references roots path) ∧
      (∀ order, Preorder graph.references [] roots order ↔ order = index.paths) ∧
      ∀ path ∈ index.paths, ∃ model object, graph.get? path = some model ∧
        index.object? path = some object ∧ model.Declares path object ∧
        ∀ dir, ∃ function, index.function? dir path = some function ∧
          function.name = dir.functionName object.name ∧
          function.Returns (model.fields.map FieldDef.name) := by
  obtain ⟨hsound, hcovers⟩ := register_ok h
  have horder := hcovers.order
  refine ⟨hsound.nodup, horder.mem_iff_reachable, fun order => ⟨fun hother => ?_, ?_⟩, ?_⟩
  · exact hother.unique horder
  · rintro rfl
    exact horder
  · intro path hpath
    obtain ⟨object, hobject⟩ := exists_object_iff.mpr hpath
    obtain ⟨model, hmodel, hdeclares⟩ := (hcovers.object_declares hobject).model
    refine ⟨model, object, hmodel, hobject, hdeclares, fun dir => ?_⟩
    obtain ⟨function, hfunction, hbuilt⟩ := hsound.exists_function hpath dir
    obtain ⟨declared, entries, hdeclared, hconverts⟩ := wireFunction_ok hbuilt
    obtain rfl : object = declared := Option.some.inj (hobject.symm.trans hdeclared)
    refine ⟨function, hfunction, hconverts.name_eq, ?_⟩
    rw [← hdeclares.names_eq]
    exact hconverts.returns

/-- Two models that refer to each other. -/
def mutualGraph : ModelGraph :=
  .ofList [
    (⟨"app.User"⟩, ⟨[⟨"name", .primitive .str, none⟩, ⟨"org", .model ⟨"app.Org"⟩, none⟩]⟩),
    (⟨"app.Org"⟩, ⟨[⟨"members", .list (.model ⟨"app.User"⟩), none⟩]⟩)]

theorem register_declares_reachable_mutual :
    ∃ index, register mutualGraph [⟨"app.Org"⟩] = .ok index ∧ index.paths.Nodup ∧
      index.paths = [⟨"app.Org"⟩, ⟨"app.User"⟩] ∧
      ∀ path, path ∈ index.paths ↔ Reachable mutualGraph.references [⟨"app.Org"⟩] path := by
  have hok : (register mutualGraph [⟨"app.Org"⟩]).toOption.map paths =
      some [⟨"app.Org"⟩, ⟨"app.User"⟩] := by
    simp only [register, addRoots, addRoot, visit_eq_visitWithin]
    decide
  obtain ⟨index, hindex, hpaths⟩ := Option.map_eq_some_iff.mp hok
  have hindex := toOption_eq_some_iff.mp hindex
  obtain ⟨hnodup, hreachable, _⟩ := register_declares_reachable hindex
  exact ⟨index, hindex, hnodup, hpaths, hreachable⟩

end TypeIndex

end SchemaWire
