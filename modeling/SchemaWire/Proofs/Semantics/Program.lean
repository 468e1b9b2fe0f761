import SchemaWire.Proofs.Naming.Module
import SchemaWire.Proofs.Semantics.Construct

/-!
The program of an index: its conversion functions, which call each other by name. Since no name is
declared twice, a call of the function of a model runs that function, which converts the fields of
the model one by one.
-/
namespace SchemaWire

open TypeScript (Env Expr Fault Operand Value invoke)

namespace TypeIndex

variable {index : TypeIndex} {dir : Direction} {call : String → Value → Except Fault Value}
  {env : Env}

/-- The entry has the name of the field and the value of its conversion. -/
def ConvertsField (index : TypeIndex) (dir : Direction)
    (call : String → Value → Except Fault Value) (env : Env) (field : ObjectField)
    (result : String × Value) : Prop :=
  result.1 = field.name ∧ ∃ converted,
    index.convertOrKeep dir field.descriptor (.member (.ident "root") field.name) 1 =
        .ok converted ∧
      converted.eval call env = .ok (.value result.2)

theorem evalEntries_convertFields_eq_ok_iff {model : String} {fields : List ObjectField}
    {entries : List TypeScript.ObjectEntry}
    (hentries : index.convertFields dir model fields = .ok entries)
    {results : List (String × Value)} :
    Expr.evalEntries call entries env = .ok results ↔
      List.Forall₂ (index.ConvertsField dir call env) fields results := by
  induction fields generalizing entries results with
  | nil =>
      cases hentries
      simp [Expr.evalEntries, eq_comm]
  | cons field rest ih =>
      obtain ⟨converted, hconverted, h⟩ := bind_eq_ok_iff.mp hentries
      have hconverted := mapError_eq_ok_iff.mp hconverted
      obtain ⟨others, hothers, h⟩ := bind_eq_ok_iff.mp h
      cases pure_eq_ok_iff.mp h
      simp only [Expr.evalEntries, bind_eq_ok_iff, Operand.toValue_eq_ok_iff, pure_eq_ok_iff]
      constructor
      · rintro ⟨_, heval, value, rfl, results, hresults, rfl⟩
        exact .cons ⟨rfl, converted, hconverted, heval⟩ ((ih hothers).mp hresults)
      · intro h
        obtain _ | @⟨_, result, _, results, ⟨hname, other, hother, heval⟩, hresults⟩ := h
        obtain rfl := Except.ok.inj (hconverted.symm.trans hother)
        exact ⟨_, heval, _, rfl, results, (ih hothers).mpr hresults, by rw [← hname]⟩

theorem keys_eq_of_convertsField {fields : List ObjectField} {results : List (String × Value)}
    (h : List.Forall₂ (index.ConvertsField dir call env) fields results) :
    results.map Prod.fst = fields.map ObjectField.name := by
  induction h with
  | nil => rfl
  | cons hhead _ ih => rw [List.map_cons, List.map_cons, hhead.1, ih]

/-- A field keeps its value in the object that a conversion returns. -/
theorem exists_lookup_of_convertsField {fields : List ObjectField}
    {results entries : List (String × Value)} (hnames : (fields.map ObjectField.name).Nodup)
    (hresults : List.Forall₂ (index.ConvertsField dir call env) fields results)
    (hentries : .ofLiteral results = Value.object entries) {field : ObjectField}
    (hfield : field ∈ fields) (hname : field.name ≠ Value.prototypeKey) :
    ∃ value, entries.lookup field.name = some value ∧
      index.ConvertsField dir call env field (field.name, value) := by
  obtain ⟨⟨name, value⟩, hresult, hconverts⟩ := exists_right_of_forall₂ hresults field hfield
  obtain rfl : name = field.name := hconverts.1
  rw [← keys_eq_of_convertsField hresults] at hnames
  exact ⟨value, Value.lookup_of_ofLiteral hentries hnames hname hresult, hconverts⟩

/-- A conversion function names its argument the root. -/
theorem Converts.bindArgument_eq {object : ObjectType} {function : WireFunction}
    {entries : List TypeScript.ObjectEntry} (h : index.Converts dir object function entries)
    (arg : Value) :
    TypeScript.bindArgument function.declared.params arg = .ok [("root", arg)] := by
  obtain ⟨param, hparams, hbinder⟩ : ∃ param, function.declared.params = [param] ∧
      param.binder = .variable "root" := by
    have hbinders := h.binders_eq
    rw [List.map_eq_singleton_iff] at hbinders
    exact hbinders
  rw [hparams, TypeScript.bindArgument, hbinder]
  rfl

/-- What a conversion function returns. -/
theorem Converts.run_eq_ok_iff {object : ObjectType} {function : WireFunction}
    {entries : List TypeScript.ObjectEntry} (h : index.Converts dir object function entries)
    {arg found : Value} :
    function.declared.run call arg = .ok found ↔ ∃ results,
      List.Forall₂ (index.ConvertsField dir call [("root", arg)]) object.fields results ∧
        found = .ofLiteral results := by
  simp only [TypeScript.Function.run, h.body_eq, h.bindArgument_eq, Expr.eval, bind_eq_ok_iff,
    Operand.toValue_eq_ok_iff, pure_eq_ok_iff, Except.ok.injEq]
  constructor
  · rintro ⟨_, rfl, _, ⟨results, hresults, rfl⟩, heq⟩
    cases Operand.value.inj heq
    exact ⟨results, (evalEntries_convertFields_eq_ok_iff h.entries_ok).mp hresults, rfl⟩
  · rintro ⟨results, hresults, rfl⟩
    exact ⟨_, rfl, _, ⟨results,
      (evalEntries_convertFields_eq_ok_iff h.entries_ok).mpr hresults, rfl⟩, rfl⟩

/-- The conversion functions of the index. -/
def program (index : TypeIndex) : List TypeScript.Function :=
  (index.fromWire ++ index.toWire).map fun entry => entry.2.declared

theorem find?_name_of_mem {functions : List TypeScript.Function} {function : TypeScript.Function}
    (hnodup : (functions.map TypeScript.Function.name).Nodup) (hmem : function ∈ functions) :
    functions.find? (fun other => other.name == function.name) = some function := by
  induction functions with
  | nil => cases hmem
  | cons first rest ih =>
      rw [List.map_cons, List.nodup_cons] at hnodup
      rcases List.mem_cons.mp hmem with rfl | hin
      · simp
      · have hne : first.name ≠ function.name := by
          intro heq
          exact hnodup.1 (List.mem_map.mpr ⟨function, hin, heq.symm⟩)
        rw [List.find?_cons_of_neg (by simpa using hne)]
        exact ih hnodup.2 hin

theorem mem_program_of_function? {path : ModelPath} {function : WireFunction}
    (h : index.function? dir path = some function) : function.declared ∈ index.program := by
  have hmem : (path, function) ∈ index.fromWire ++ index.toWire := by
    cases dir with
    | fromWire =>
        obtain ⟨before, after, heq, _⟩ := List.lookup_eq_some_iff.mp h
        simp [heq]
    | toWire =>
        obtain ⟨before, after, heq, _⟩ := List.lookup_eq_some_iff.mp h
        simp [heq]
  exact List.mem_map.mpr ⟨_, hmem, rfl⟩

namespace Sound

theorem nodup_program_names (h : index.Sound) :
    (index.program.map TypeScript.Function.name).Nodup := by
  have hall := h.nodup_names
  rw [← h.declaredNames_eq] at hall
  have hfunctions := hall.sublist (List.sublist_append_right _ _)
  rw [program, List.map_map]
  exact hfunctions

theorem exists_converts (h : index.Sound) {path : ModelPath} {object : ObjectType}
    (hobject : index.object? path = some object) (dir : Direction) :
    ∃ function entries, index.function? dir path = some function ∧
      index.Converts dir object function entries := by
  obtain ⟨function, hfunction, hbuilt⟩ := h.exists_function (exists_object_iff.mp ⟨_, hobject⟩) dir
  obtain ⟨declared, entries, hdeclared, hconverts⟩ := wireFunction_ok hbuilt
  obtain rfl := Option.some.inj (hobject.symm.trans hdeclared)
  exact ⟨function, entries, hfunction, hconverts⟩

/-- The conversion of every field of a declared model exists. -/
theorem exists_convert_field (h : index.Sound) {path : ModelPath} {object : ObjectType}
    (hobject : index.object? path = some object) {field : ObjectField}
    (hfield : field ∈ object.fields) (dir : Direction) :
    ∃ converted, index.convert dir field.descriptor (.member (.ident "root") field.name) 1 =
      .ok converted := by
  obtain ⟨function, entries, _, hconverts⟩ := h.exists_converts hobject dir
  obtain ⟨entry, _, converted, hconverted, _⟩ := exists_right_of_forall₂
    (convertFields_eq_ok_iff.mp hconverts.entries_ok) field hfield
  exact exists_convertOrKeep_iff.mp ⟨converted, hconverted⟩

/-- A call of the conversion function of a model converts the fields of the model. -/
theorem invoke_eq_ok_iff (h : index.Sound) {path : ModelPath} {object : ObjectType}
    (hobject : index.object? path = some object) {depth : Nat} {arg found : Value} :
    invoke index.program depth (dir.functionName object.name) arg = .ok found ↔
      ∃ inner results, depth = inner + 1 ∧
        List.Forall₂ (index.ConvertsField dir (invoke index.program inner) [("root", arg)])
          object.fields results ∧
        found = .ofLiteral results := by
  obtain ⟨function, entries, hfunction, hconverts⟩ := h.exists_converts hobject dir
  have hfind := find?_name_of_mem h.nodup_program_names (mem_program_of_function? hfunction)
  rw [hconverts.name_eq] at hfind
  cases depth with
  | zero => simp [invoke]
  | succ inner =>
      rw [invoke, hfind]
      simp only [hconverts.run_eq_ok_iff, Nat.succ.injEq]
      constructor
      · rintro ⟨results, hresults, rfl⟩
        exact ⟨inner, results, rfl, hresults, rfl⟩
      · rintro ⟨_, results, rfl, hresults, rfl⟩
        exact ⟨results, hresults, rfl⟩

end Sound

end TypeIndex

end SchemaWire
