import SchemaWire.Proofs.Index.Registration

/-!
The names of declared fields. A declared model is written with the field names of its model, in
order and with all repetitions, wherever they stand: in the object type, in its declaration, and in
what its conversion functions return. The main statement is that a registration declares every name
at most once exactly if no model that it reaches has two fields of one name; nothing else keeps the
names apart.
-/
namespace SchemaWire

namespace TypeIndex

/-- The model is declared with fields of these names: the object type has them, its declaration has
them as properties, and both conversion functions return an object with them as keys. -/
structure WritesNames (index : TypeIndex) (path : ModelPath) (names : List String) : Prop where
  fields : ∃ object, index.object? path = some object ∧
    object.fields.map ObjectField.name = names ∧
    ∃ properties, object.typeDecl.body = .object properties ∧
      properties.map TypeScript.Property.name = names
  keys : ∀ dir, ∃ function, index.function? dir path = some function ∧ function.Returns names

variable {index : TypeIndex} {path : ModelPath} {graph : ModelGraph} {roots : List ModelPath}

theorem WritesNames.unique {names others : List String} (h : index.WritesNames path names)
    (hother : index.WritesNames path others) : names = others := by
  obtain ⟨object, hobject, hnames, _⟩ := h.fields
  obtain ⟨same, hsame, hothers, _⟩ := hother.fields
  obtain rfl := Option.some.inj (hobject.symm.trans hsame)
  exact hnames.symm.trans hothers

theorem map_name_properties (object : ObjectType) :
    ∃ properties, object.typeDecl.body = .object properties ∧
      properties.map TypeScript.Property.name = object.fields.map ObjectField.name :=
  ⟨_, rfl, List.map_map⟩

/-- What a registration reaches is written with the names that the graph gives it. -/
theorem exists_writesNames (h : register graph roots = .ok index)
    (hpath : Reachable graph.references roots path) :
    ∃ model, graph.get? path = some model ∧
      index.WritesNames path (model.fields.map FieldDef.name) := by
  obtain ⟨hsound, hcovers⟩ := register_ok h
  have hmem := (hcovers.order.mem_iff_reachable path).mpr hpath
  obtain ⟨object, hobject⟩ := exists_object_iff.mpr hmem
  obtain ⟨model, hmodel, hdeclares⟩ := (hcovers.object_declares hobject).model
  have hnames := hdeclares.names_eq
  obtain ⟨properties, hbody, hproperties⟩ := map_name_properties object
  refine ⟨model, hmodel,
    ⟨object, hobject, hnames, properties, hbody, hproperties.trans hnames⟩, fun dir => ?_⟩
  obtain ⟨function, hfunction, hbuilt⟩ := hsound.exists_function hmem dir
  obtain ⟨declared, entries, hdeclared, hconverts⟩ := wireFunction_ok hbuilt
  obtain rfl : object = declared := Option.some.inj (hobject.symm.trans hdeclared)
  exact ⟨function, hfunction, hnames ▸ hconverts.returns⟩

/-- Every model that a registration reaches is written with the field names of its model, wherever
they stand. No name is written twice in one place exactly if no model that is reached has two fields
of one name: a repeated field is no error, and is declared as often as it is there. -/
theorem register_writesNames_nodup_iff (h : register graph roots = .ok index) :
    (∀ path, Reachable graph.references roots path → ∃ model, graph.get? path = some model ∧
      index.WritesNames path (model.fields.map FieldDef.name)) ∧
    ((∀ path ∈ index.paths, ∀ names, index.WritesNames path names → names.Nodup) ↔
      ∀ path model, Reachable graph.references roots path → graph.get? path = some model →
        (model.fields.map FieldDef.name).Nodup) := by
  obtain ⟨_, hcovers⟩ := register_ok h
  refine ⟨fun path => exists_writesNames h, ?_, ?_⟩
  · intro hdistinct path model hpath hmodel
    obtain ⟨found, hfound, hwrites⟩ := exists_writesNames h hpath
    obtain rfl := Option.some.inj (hmodel.symm.trans hfound)
    exact hdistinct path ((hcovers.order.mem_iff_reachable path).mpr hpath) _ hwrites
  · intro hdistinct path hmem names hwrites
    have hpath := (hcovers.order.mem_iff_reachable path).mp hmem
    obtain ⟨model, hmodel, hmodelWrites⟩ := exists_writesNames h hpath
    rw [hwrites.unique hmodelWrites]
    exact hdistinct path model hpath hmodel

/-- A user with two fields of one name, and a team without fields of one name. -/
def twiceGraph : ModelGraph :=
  .ofList [
    (⟨"app.User"⟩, ⟨[⟨"id", .primitive .str, none⟩, ⟨"id", .primitive .str, none⟩]⟩),
    (⟨"app.Team"⟩, ⟨[⟨"id", .primitive .str, none⟩, ⟨"lead", .primitive .str, none⟩]⟩)]

/-- The team is declared with distinct names, the user with one name twice. -/
theorem register_writesNames_nodup_iff_twice :
    (∃ index, register twiceGraph [⟨"app.User"⟩] = .ok index ∧
      index.WritesNames ⟨"app.User"⟩ ["id", "id"] ∧
      ¬ ∀ path ∈ index.paths, ∀ names, index.WritesNames path names → names.Nodup) ∧
    ∃ index, register twiceGraph [⟨"app.Team"⟩] = .ok index ∧
      ∀ path ∈ index.paths, ∀ names, index.WritesNames path names → names.Nodup := by
  have hok : ∀ root ∈ [⟨"app.User"⟩, ⟨"app.Team"⟩],
      (register twiceGraph [root]).toOption.map paths = some [root] := by
    simp only [register, addRoots, addRoot, visit_eq_visitWithin]
    decide
  constructor
  · obtain ⟨index, hindex, _⟩ := Option.map_eq_some_iff.mp (hok ⟨"app.User"⟩ (by decide))
    have hregister := toOption_eq_some_iff.mp hindex
    have hreachable : Reachable twiceGraph.references [⟨"app.User"⟩] ⟨"app.User"⟩ :=
      .root List.mem_cons_self
    obtain ⟨hwrites, hiff⟩ := register_writesNames_nodup_iff hregister
    obtain ⟨model, hmodel, huser⟩ := hwrites _ hreachable
    cases hmodel
    refine ⟨index, hregister, huser, fun hdistinct => ?_⟩
    exact absurd (hiff.mp hdistinct _ _ hreachable rfl) (by decide)
  · obtain ⟨index, hindex, hpaths⟩ := Option.map_eq_some_iff.mp (hok ⟨"app.Team"⟩ (by decide))
    have hregister := toOption_eq_some_iff.mp hindex
    obtain ⟨_, hcovers⟩ := register_ok hregister
    refine ⟨index, hregister,
      (register_writesNames_nodup_iff hregister).2.mpr fun path model hpath hmodel => ?_⟩
    have hmem := (hcovers.order.mem_iff_reachable path).mpr hpath
    rw [hpaths, List.mem_singleton] at hmem
    subst hmem
    cases hmodel
    decide

end TypeIndex

end SchemaWire
