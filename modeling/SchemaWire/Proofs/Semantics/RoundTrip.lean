import SchemaWire.Proofs.Semantics.Image
import SchemaWire.Proofs.Semantics.Transfer

/-!
The round trip through both conversion functions of a model. A value of either form comes back as it
was, except if a record in it has a field under the key of the prototype: the object literal of a
conversion function makes this field the prototype of the result, and the field is lost.
-/
namespace SchemaWire

open TypeScript (Env Expr Value invoke)

namespace TypeIndex

variable {index : TypeIndex} {dir : Direction} {path : ModelPath} {value converted : Value}

/-- The conversion function of a model returns the result, once calls may be nested deep enough. -/
def Evaluates (index : TypeIndex) (dir : Direction) (path : ModelPath) (arg result : Value) :
    Prop :=
  ∃ object, index.object? path = some object ∧ ∀ᶠ depth in Filter.atTop,
    invoke index.program depth (dir.functionName object.name) arg = .ok result

/-- The value is converted to a value of the other form, and that one back to the value. -/
def RoundTrips (index : TypeIndex) (dir : Direction) (path : ModelPath) (value : Value) : Prop :=
  ∃ converted, Conforms index dir.target (.model path) converted ∧
    index.Evaluates dir path value converted ∧ index.Evaluates dir.opposite path converted value

theorem Evaluates.yields (h : index.Evaluates dir path value converted) :
    index.Yields dir (.model path) converted := by
  obtain ⟨object, hobject, hcall⟩ := h
  obtain ⟨depth, hdepth⟩ := hcall.exists
  have hlocal : Env.IsLocal [("root", value)] := by simp [Env.IsLocal]
  have hconvert : index.convert dir (.model path) (.ident "root") 0 =
      .ok (some (.call (.ident (dir.functionName object.name)) [.ident "root"])) :=
    map_eq_ok_iff.mpr ⟨_, modelCall_eq_ok_iff.mpr ⟨object, hobject, rfl⟩, rfl⟩
  refine ⟨_, 0, depth, _, _, hlocal, hconvert, ?_⟩
  exact (eval_functionCall_eq_ok_iff hlocal).mpr
    ⟨value, converted, TypeScript.eval_ident_of_lookup List.lookup_cons_self, hdepth, rfl⟩

/-- Corresponding values of a model are converted to each other. -/
theorem Sound.evaluates (hsound : index.Sound)
    (hnames : ∀ path object, index.object? path = some object →
      (object.fields.map ObjectField.name).Nodup)
    (h : Corresponds index.plain dir (.model path) value converted) :
    index.Evaluates dir path value converted := by
  have htransfers := hsound.eventually_transfers hnames h trivial
  cases h with
  | @model _ object _ _ hobject _ =>
      have hdeclared := (hsound.object?_plain_eq_some_iff.mp hobject).1
      exact ⟨object, hdeclared, htransfers.mono fun _ h => h.call_eq_ok hdeclared⟩

/-- A value survives the round trip exactly if no record in it has a field under the key of the
prototype. -/
theorem register_roundTrips_iff {graph : ModelGraph} {roots : List ModelPath}
    (h : register graph roots = .ok index)
    (hnames : ∀ path model, graph.get? path = some model →
      (model.fields.map FieldDef.name).Nodup)
    (hvalue : Conforms index dir.source (.model path) value) :
    index.RoundTrips dir path value ↔ Conforms index.plain dir.source (.model path) value := by
  obtain ⟨hsound, hcovers⟩ := register_ok h
  have hnodup : ∀ path object, index.object? path = some object →
      (object.fields.map ObjectField.name).Nodup := by
    intro path object hobject
    obtain ⟨model, hmodel, hdeclares⟩ := (hcovers.object_declares hobject).model
    rw [hdeclares.names_eq]
    exact hnames path model hmodel
  constructor
  · rintro ⟨converted, _, _, hback⟩
    exact hsound.conforms_plain hnodup hvalue trivial hback.yields
  · intro hplain
    obtain ⟨converted, hconverted⟩ := hplain.exists_corresponds
    exact ⟨converted, hconverted.conforms_target.mono hsound.extends_plain,
      hsound.evaluates hnodup hconverted, hsound.evaluates hnodup hconverted.flip⟩

/-- Events, which may have a next event, and labels, whose only field is under the key of the
prototype. -/
def eventGraph : ModelGraph :=
  .ofList [
    (⟨"app.Event"⟩, ⟨[⟨"at", .primitive .datetime, none⟩,
      ⟨"next", .optional (.model ⟨"app.Event"⟩), none⟩]⟩),
    (⟨"app.Label"⟩, ⟨[⟨"__proto__", .primitive .str, none⟩]⟩)]

instance (time : Int) : Decidable (IsInstant time) :=
  inferInstanceAs (Decidable (_ ∧ _))

/-- The time of an event, and what comes next. -/
def eventField (next : Value) (field : ObjectField) : Value :=
  if field.name = "at" then Form.wire.instant 0 else next

theorem conforms_event {object : ObjectType} {model : ModelDef} {next : Value}
    (hmodel : eventGraph.get? ⟨"app.Event"⟩ = some model)
    (hdeclares : model.Declares ⟨"app.Event"⟩ object)
    (hobject : index.object? ⟨"app.Event"⟩ = some object)
    (hnext : next = .null ∨ Conforms index .wire (.model ⟨"app.Event"⟩) next) :
    Conforms index .wire (.model ⟨"app.Event"⟩) (recordOf object.fields (eventField next)) := by
  cases hmodel
  refine .model hobject fun field hfield => ?_
  obtain ⟨declared, hdeclared, hdeclares⟩ := exists_left_of_forall₂ hdeclares.fields field hfield
  simp only [List.mem_cons, List.not_mem_nil, or_false] at hdeclared
  rcases hdeclared with rfl | rfl
  · have hdesc : field.descriptor = .primitive .datetime :=
      (Except.ok.inj hdeclares.classified).symm
    have hinstant : eventField next field = Form.wire.instant 0 := by
      simp [eventField, hdeclares.name_eq]
    rw [hdesc, hinstant]
    exact .instant (by decide)
  · have hdesc : field.descriptor = .optional (.model ⟨"app.Event"⟩) :=
      (Except.ok.inj hdeclares.classified).symm
    have hvalue : eventField next field = next := by
      simp [eventField, hdeclares.name_eq]
    rw [hdesc, hvalue]
    rcases hnext with rfl | hnext
    · exact .absent _
    · exact .present hnext

theorem conforms_label {object : ObjectType} {model : ModelDef}
    (hmodel : eventGraph.get? ⟨"app.Label"⟩ = some model)
    (hdeclares : model.Declares ⟨"app.Label"⟩ object)
    (hobject : index.object? ⟨"app.Label"⟩ = some object) :
    Conforms index .wire (.model ⟨"app.Label"⟩)
      (recordOf object.fields fun _ => .scalar (.string "urgent")) := by
  cases hmodel
  refine .model hobject fun field hfield => ?_
  obtain ⟨declared, hdeclared, hdeclares⟩ := exists_left_of_forall₂ hdeclares.fields field hfield
  cases List.mem_singleton.mp hdeclared
  have hdesc : field.descriptor = .primitive .str := (Except.ok.inj hdeclares.classified).symm
  rw [hdesc]
  exact .scalar rfl

theorem register_roundTrips_iff_event :
    ∃ index, register eventGraph [⟨"app.Event"⟩, ⟨"app.Label"⟩] = .ok index ∧
      (∃ value, Conforms index .wire (.model ⟨"app.Event"⟩) value ∧
        index.RoundTrips .fromWire ⟨"app.Event"⟩ value) ∧
      ∃ value, Conforms index .wire (.model ⟨"app.Label"⟩) value ∧
        ¬ index.RoundTrips .fromWire ⟨"app.Label"⟩ value := by
  have hok : (register eventGraph [⟨"app.Event"⟩, ⟨"app.Label"⟩]).toOption.isSome = true := by
    simp only [register, addRoots, addRoot, visit_eq_visitWithin]
    decide
  obtain ⟨index, hindex⟩ := exists_ok_of_isSome hok
  have hnames : ∀ path model, eventGraph.get? path = some model →
      (model.fields.map FieldDef.name).Nodup := by
    have hall : ∀ entry ∈ eventGraph.models.entries, (entry.2.fields.map FieldDef.name).Nodup := by
      decide
    intro path model hmodel
    obtain ⟨before, after, heq, _⟩ := List.lookup_eq_some_iff.mp hmodel
    exact hall (path.text, model) (by simp [heq])
  obtain ⟨hsound, hcovers⟩ := register_ok hindex
  have hroots := hcovers.order.pending_subset
  have hdeclared : ∀ path ∈ [⟨"app.Event"⟩, ⟨"app.Label"⟩], ∃ model object,
      index.object? path = some object ∧ eventGraph.get? path = some model ∧
        model.Declares path object := by
    intro path hpath
    obtain ⟨object, hobject⟩ := exists_object_iff.mpr (by simpa using hroots path hpath)
    obtain ⟨model, hmodel, hdeclares⟩ := (hcovers.object_declares hobject).model
    exact ⟨model, object, hobject, hmodel, hdeclares⟩
  refine ⟨index, hindex, ?_, ?_⟩
  · obtain ⟨model, object, hobject, hmodel, hdeclares⟩ := hdeclared ⟨"app.Event"⟩ (by simp)
    have hnot : Value.prototypeKey ∉ object.fields.map ObjectField.name := by
      rw [hdeclares.names_eq]
      cases hmodel
      decide
    have hplain := hsound.object?_plain_eq_some_iff.mpr ⟨hobject, hnot⟩
    have hlast := conforms_event hmodel hdeclares hplain (Or.inl rfl)
    have hfirst := conforms_event hmodel hdeclares hplain (Or.inr hlast)
    have hvalue := hfirst.mono hsound.extends_plain
    exact ⟨_, hvalue,
      (@register_roundTrips_iff index .fromWire _ _ _ _ hindex hnames hvalue).mpr hfirst⟩
  · obtain ⟨model, object, hobject, hmodel, hdeclares⟩ := hdeclared ⟨"app.Label"⟩ (by simp)
    have hvalue := conforms_label hmodel hdeclares hobject
    refine ⟨_, hvalue, fun hround => ?_⟩
    have hplain :=
      (@register_roundTrips_iff index .fromWire _ _ _ _ hindex hnames hvalue).mp hround
    obtain ⟨declared, hdeclared⟩ := hplain.exists_object
    obtain ⟨hsame, hnot⟩ := hsound.object?_plain_eq_some_iff.mp hdeclared
    obtain rfl := Option.some.inj (hobject.symm.trans hsame)
    rw [hdeclares.names_eq] at hnot
    cases hmodel
    exact hnot (by decide)

end TypeIndex

end SchemaWire
