import SchemaWire.Proofs.Descriptor.WellFormed
import SchemaWire.Proofs.Wire.Discriminant
import SchemaWire.Wire.Convert

/-!
When conversions can be built. A conversion exists exactly if the models it calls are declared and
every union of models at any depth has a discriminant; it stays the same when more is declared. The
conversions that do something are told by rules, one for each kind of descriptor, and what holds of
all of them is proved by induction on these rules.
-/
namespace SchemaWire

open TypeScript (Expr ObjectEntry)

namespace Descriptor

/-- The variants of every union of models, at any depth. -/
def modelUnions : Descriptor → List (List ModelPath)
  | unionOfModels variants _ => [variants]
  | optional inner | list inner | annotated inner _ => inner.modelUnions
  | mapping key value => key.modelUnions ++ value.modelUnions
  | primitive _ | literal _ | model _ | unionOfScalars _ _ => []

theorem mem_models {desc : Descriptor} {path : ModelPath} :
    path ∈ desc.models ↔ path ∈ desc.modelMentions :=
  List.mem_eraseDups

theorem modelUnions_peel (desc : Descriptor) : desc.peel.modelUnions = desc.modelUnions := by
  fun_induction peel desc with
  | case1 inner attachments ih => exact ih
  | case2 => rfl

/-- The key of a mapping holds no union. -/
theorem modelUnions_of_isMappingKey {desc : Descriptor} (h : desc.isMappingKey = true) :
    desc.modelUnions = [] := by
  rw [← modelUnions_peel]
  rcases peel_of_isMappingKey h with hpeel | hpeel <;> rw [hpeel, modelUnions]

theorem length_of_mem_modelUnions {desc : Descriptor} (hwell : desc.WellFormed)
    {variants : List ModelPath} (hmem : variants ∈ desc.modelUnions) : 2 ≤ variants.length := by
  fun_induction modelUnions desc with
  | case1 members nullable =>
      cases List.mem_singleton.mp hmem
      exact hwell
  | case2 inner ih => exact ih hwell.2 hmem
  | case3 inner ih => exact ih hwell hmem
  | case4 inner attachments ih => exact ih hwell hmem
  | case5 key value ihKey ihValue =>
      rcases List.mem_append.mp hmem with hin | hin
      · exact ihKey hwell.2.1 hin
      · exact ihValue hwell.2.2 hin
  | _ => cases hmem

theorem mem_models_of_mem_modelUnions {desc : Descriptor} {variants : List ModelPath}
    (hmem : variants ∈ desc.modelUnions) : ∀ path ∈ variants, path ∈ desc.models := by
  intro path hpath
  rw [mem_models]
  fun_induction modelUnions desc with
  | case1 members nullable =>
      cases List.mem_singleton.mp hmem
      exact hpath
  | case2 inner ih => exact ih hmem
  | case3 inner ih => exact ih hmem
  | case4 inner attachments ih => exact ih hmem
  | case5 key value ihKey ihValue =>
      rw [modelMentions, List.mem_append]
      exact (List.mem_append.mp hmem).imp ihKey ihValue
  | _ => cases hmem

end Descriptor

namespace TypeIndex

variable {index next : TypeIndex} {dir : Direction}

/-- Every model declared in the index is declared in the same way in `next`. -/
def Extends (index next : TypeIndex) : Prop :=
  ∀ path object, index.object? path = some object → next.object? path = some object

theorem Extends.marks (h : index.Extends next) {field : String} {path : ModelPath}
    {value : LiteralValue} : index.Marks field path value → next.Marks field path value := by
  rintro ⟨object, hobject, hmarked⟩
  exact ⟨object, h path object hobject, hmarked⟩

theorem modelCall_eq_ok_iff {path : ModelPath} {src call : Expr} :
    index.modelCall dir path src = .ok call ↔ ∃ object, index.object? path = some object ∧
      call = .call (.ident (dir.functionName object.name)) [src] := by
  rw [modelCall, bind_eq_ok_iff]
  simp only [requireObject_eq_ok_iff, pure_eq_ok_iff, @eq_comm _ call]

/-- What becomes of values that change on the wire, with one rule for each kind of descriptor. -/
inductive ConvertsTo (index : TypeIndex) (dir : Direction) :
    Descriptor → Expr → Nat → Expr → Prop where
  | date (src : Expr) (depth : Nat) :
      ConvertsTo index dir (.primitive .datetime) src depth (convertDate src dir)
  | annotated {inner : Descriptor} {attachments : List Attachment} {src expr : Expr} {depth : Nat}
      (hinner : ConvertsTo index dir inner src depth expr) :
      ConvertsTo index dir (.annotated inner attachments) src depth expr
  | optional {inner : Descriptor} {src body : Expr} {depth : Nat}
      (hinner : ConvertsTo index dir inner src (depth + 1) body) :
      ConvertsTo index dir (.optional inner) src depth (nullGuard src body)
  | list {element : Descriptor} {src body : Expr} {depth : Nat}
      (hinner : ConvertsTo index dir element (.ident (valueVar depth)) (depth + 1) body) :
      ConvertsTo index dir (.list element) src depth
        (convertItems src (valueVar depth) (dir.sourceTy element.render) body)
  | mapping {key value : Descriptor} {src body : Expr} {depth : Nat}
      (hinner : ConvertsTo index dir value (.ident (valueVar depth)) (depth + 1) body) :
      ConvertsTo index dir (.mapping key value) src depth
        (convertEntries src (keyVar depth) (valueVar depth) key.render
          (dir.sourceTy value.render) body)
  | model {path : ModelPath} {src call : Expr} {depth : Nat}
      (hcall : index.modelCall dir path src = .ok call) :
      ConvertsTo index dir (.model path) src depth call
  | union {variants : List ModelPath} {src expr : Expr} {depth : Nat}
      (hdispatch : index.dispatch dir variants src = .ok expr) :
      ConvertsTo index dir (.unionOfModels variants false) src depth expr
  | nullableUnion {variants : List ModelPath} {src expr : Expr} {depth : Nat}
      (hdispatch : index.dispatch dir variants src = .ok expr) :
      ConvertsTo index dir (.unionOfModels variants true) src depth (nullGuard src expr)

theorem bind_map_eq_ok_some_iff {α : Type} {converted : Gen (Option α)} {wrap : α → Expr}
    {expr : Expr} : (do return (← converted).map wrap) = (Except.ok (some expr) : Gen _) ↔
      ∃ body, converted = .ok (some body) ∧ wrap body = expr := by
  rw [bind_eq_ok_iff]
  constructor
  · rintro ⟨result, hresult, heq⟩
    obtain ⟨body, rfl, hwrap⟩ := Option.map_eq_some_iff.mp (pure_eq_ok_iff.mp heq)
    exact ⟨body, hresult, hwrap⟩
  · rintro ⟨body, hbody, rfl⟩
    exact ⟨some body, hbody, rfl⟩

theorem ConvertsTo.of_convert {desc : Descriptor} {src expr : Expr} {depth : Nat}
    (h : index.convert dir desc src depth = .ok (some expr)) :
    index.ConvertsTo dir desc src depth expr := by
  fun_induction TypeIndex.convert index dir desc src depth generalizing expr with
  | case1 src depth =>
      cases h
      exact .date src depth
  | case2 kind src depth hkind =>
      rw [convertScalar_primitive hkind] at h
      cases h
  | case3 value src depth => cases h
  | case4 variants nullable src depth => cases h
  | case5 inner attachments src depth ih => exact .annotated (ih h)
  | case6 inner src depth ih =>
      obtain ⟨body, hinner, rfl⟩ := bind_map_eq_ok_some_iff.mp h
      exact .optional (ih hinner)
  | case7 element src depth var =>
      rename_i ih
      obtain ⟨body, hinner, rfl⟩ := bind_map_eq_ok_some_iff.mp h
      exact .list (ih hinner)
  | case8 key value src depth var =>
      rename_i ih
      obtain ⟨body, hinner, rfl⟩ := bind_map_eq_ok_some_iff.mp h
      exact .mapping (ih hinner)
  | case9 path src depth =>
      obtain ⟨call, hcall, heq⟩ := map_eq_ok_iff.mp h
      cases heq
      exact .model hcall
  | case10 variants nullable src depth =>
      obtain ⟨converted, hdispatch, heq⟩ := bind_eq_ok_iff.mp h
      cases pure_eq_ok_iff.mp heq
      cases nullable with
      | false => exact .union hdispatch
      | true => exact .nullableUnion hdispatch

/-- The conversions that do something are those that the rules build. -/
theorem convert_eq_some_iff {desc : Descriptor} {src expr : Expr} {depth : Nat} :
    index.convert dir desc src depth = .ok (some expr) ↔
      index.ConvertsTo dir desc src depth expr := by
  refine ⟨.of_convert, fun h => ?_⟩
  induction h with
  | date src depth => rfl
  | annotated _ ih => exact ih
  | optional _ ih => exact bind_map_eq_ok_some_iff.mpr ⟨_, ih, rfl⟩
  | list _ ih => exact bind_map_eq_ok_some_iff.mpr ⟨_, ih, rfl⟩
  | mapping _ ih => exact bind_map_eq_ok_some_iff.mpr ⟨_, ih, rfl⟩
  | model hcall => exact map_eq_ok_iff.mpr ⟨_, hcall, rfl⟩
  | union hdispatch => exact bind_eq_ok_iff.mpr ⟨_, hdispatch, rfl⟩
  | nullableUnion hdispatch => exact bind_eq_ok_iff.mpr ⟨_, hdispatch, rfl⟩

/-- The rules do not overlap: there is one conversion of a value. -/
theorem ConvertsTo.unique {desc : Descriptor} {src expr other : Expr} {depth : Nat}
    (h : index.ConvertsTo dir desc src depth expr)
    (hother : index.ConvertsTo dir desc src depth other) : expr = other := by
  have heq := (convert_eq_some_iff.mpr h).symm.trans (convert_eq_some_iff.mpr hother)
  exact Option.some.inj (Except.ok.inj heq)

/-- An arm is a comparison before the rest of the chain. -/
theorem dispatchArms_cons_eq_ok_iff {field : String} {src result : Expr}
    {arm : ModelPath × LiteralValue} {rest : UnionArms} :
    index.dispatchArms dir field src (arm :: rest) = .ok result ↔ ∃ converted otherwise,
      index.modelCall dir arm.1 src = .ok converted ∧
        index.dispatchArms dir field src rest = .ok otherwise ∧
        result = .conditional (.binary (.member src field) .strictEqual
          (.literal arm.2.render)) converted otherwise := by
  simp only [dispatchArms, bind_eq_ok_iff, pure_eq_ok_iff, @eq_comm _ result,
    exists_and_left]

theorem Extends.modelCall (h : index.Extends next) {path : ModelPath} {src call : Expr}
    (hcall : index.modelCall dir path src = .ok call) :
    next.modelCall dir path src = .ok call := by
  obtain ⟨object, hobject, heq⟩ := modelCall_eq_ok_iff.mp hcall
  exact modelCall_eq_ok_iff.mpr ⟨object, h path object hobject, heq⟩

theorem Extends.discriminant (h : index.Extends next) {variants : List ModelPath}
    {result : String × UnionArms} (hdisc : index.discriminant variants = .ok result) :
    next.discriminant variants = .ok result := by
  obtain ⟨hne, values, hmarks, hnodup, harms⟩ := discriminant_eq_ok_iff.mp hdisc
  exact discriminant_eq_ok_iff.mpr ⟨hne, values, hmarks.imp fun _ _ => h.marks, hnodup, harms⟩

theorem Extends.dispatchArms (h : index.Extends next) {field : String} {src result : Expr}
    {arms : UnionArms} (harms : index.dispatchArms dir field src arms = .ok result) :
    next.dispatchArms dir field src arms = .ok result := by
  induction arms generalizing result with
  | nil => exact harms
  | cons arm rest ih =>
      obtain ⟨converted, otherwise, hcall, hrest, rfl⟩ := dispatchArms_cons_eq_ok_iff.mp harms
      exact dispatchArms_cons_eq_ok_iff.mpr ⟨_, _, h.modelCall hcall, ih hrest, rfl⟩

theorem Extends.dispatch (h : index.Extends next) {variants : List ModelPath} {src result : Expr}
    (hdispatch : index.dispatch dir variants src = .ok result) :
    next.dispatch dir variants src = .ok result := by
  rw [TypeIndex.dispatch, bind_eq_ok_iff] at hdispatch ⊢
  obtain ⟨found, hdisc, harms⟩ := hdispatch
  exact ⟨found, h.discriminant hdisc, h.dispatchArms harms⟩

/-- A conversion that exists stays the same when more is declared. -/
theorem Extends.convert (h : index.Extends next) {desc : Descriptor} {src : Expr} {depth : Nat}
    {result : Option Expr} (hconvert : index.convert dir desc src depth = .ok result) :
    next.convert dir desc src depth = .ok result := by
  fun_induction TypeIndex.convert index dir desc src depth generalizing result with
  | case1 src depth => exact hconvert
  | case2 kind src depth hkind => rwa [TypeIndex.convert.eq_2 _ _ _ _ _ hkind]
  | case3 value src depth => exact hconvert
  | case4 variants nullable src depth => exact hconvert
  | case5 inner attachments src depth ih => exact ih hconvert
  | case6 inner src depth ih =>
      obtain ⟨converted, hinner, heq⟩ := bind_eq_ok_iff.mp hconvert
      exact bind_eq_ok_iff.mpr ⟨converted, ih hinner, heq⟩
  | case7 element src depth var =>
      rename_i ih
      obtain ⟨converted, hinner, heq⟩ := bind_eq_ok_iff.mp hconvert
      exact bind_eq_ok_iff.mpr ⟨converted, ih hinner, heq⟩
  | case8 key value src depth var =>
      rename_i ih
      obtain ⟨converted, hinner, heq⟩ := bind_eq_ok_iff.mp hconvert
      exact bind_eq_ok_iff.mpr ⟨converted, ih hinner, heq⟩
  | case9 path src depth =>
      obtain ⟨call, hcall, heq⟩ := map_eq_ok_iff.mp hconvert
      exact map_eq_ok_iff.mpr ⟨call, h.modelCall hcall, heq⟩
  | case10 variants nullable src depth =>
      obtain ⟨converted, hdispatch, heq⟩ := bind_eq_ok_iff.mp hconvert
      exact bind_eq_ok_iff.mpr ⟨converted, h.dispatch hdispatch, heq⟩

theorem Extends.convertFields (h : index.Extends next) {model : String} {fields : List ObjectField}
    {entries : List ObjectEntry} (hfields : index.convertFields dir model fields = .ok entries) :
    next.convertFields dir model fields = .ok entries := by
  induction fields generalizing entries with
  | nil => exact hfields
  | cons field rest ih =>
      rw [TypeIndex.convertFields, bind_eq_ok_iff] at hfields ⊢
      obtain ⟨converted, hconverted, hfields⟩ := hfields
      obtain ⟨others, hothers, heq⟩ := bind_eq_ok_iff.mp hfields
      obtain ⟨found, hfound, hkeep⟩ := bind_eq_ok_iff.mp (mapError_eq_ok_iff.mp hconverted)
      exact ⟨converted,
        mapError_eq_ok_iff.mpr (bind_eq_ok_iff.mpr ⟨found, h.convert hfound, hkeep⟩),
        bind_eq_ok_iff.mpr ⟨others, ih hothers, heq⟩⟩

theorem Extends.wireFunction (h : index.Extends next) {path : ModelPath} {function : WireFunction}
    (hfunction : index.wireFunction dir path = .ok function) :
    next.wireFunction dir path = .ok function := by
  rw [TypeIndex.wireFunction, bind_eq_ok_iff] at hfunction ⊢
  obtain ⟨object, hobject, hfunction⟩ := hfunction
  obtain ⟨entries, hentries, heq⟩ := bind_eq_ok_iff.mp hfunction
  rw [requireObject_eq_ok_iff] at hobject
  exact ⟨object, requireObject_eq_ok_iff.mpr (h path object hobject),
    bind_eq_ok_iff.mpr ⟨entries, h.convertFields hentries, heq⟩⟩

theorem exists_modelCall {path : ModelPath} {object : ObjectType}
    (hobject : index.object? path = some object) (src : Expr) :
    ∃ call, index.modelCall dir path src = .ok call :=
  ⟨_, modelCall_eq_ok_iff.mpr ⟨object, hobject, rfl⟩⟩

theorem exists_dispatchArms {arms : UnionArms}
    (hdeclared : ∀ arm ∈ arms, ∃ object, index.object? arm.1 = some object) (field : String)
    (src : Expr) : ∃ result, index.dispatchArms dir field src arms = .ok result := by
  induction arms with
  | nil => exact ⟨_, rfl⟩
  | cons arm rest ih =>
      obtain ⟨object, hobject⟩ := hdeclared arm List.mem_cons_self
      obtain ⟨call, hcall⟩ := @exists_modelCall _ dir _ _ hobject src
      obtain ⟨otherwise, hrest⟩ := ih fun arm harm => hdeclared arm (List.mem_cons_of_mem _ harm)
      exact ⟨_, dispatchArms_cons_eq_ok_iff.mpr ⟨call, otherwise, hcall, hrest, rfl⟩⟩

/-- The variants of a union that has a discriminant are declared, so that it can be dispatched. -/
theorem exists_dispatch {variants : List ModelPath} {found : String × UnionArms}
    (hdisc : index.discriminant variants = .ok found) (src : Expr) :
    ∃ result, index.dispatch dir variants src = .ok result := by
  obtain ⟨_, values, hmarks, _, harms⟩ := discriminant_eq_ok_iff.mp hdisc
  have hdeclared : ∀ arm ∈ found.2, ∃ object, index.object? arm.1 = some object := by
    rw [harms]
    rintro ⟨path, value⟩ harm
    obtain ⟨object, hobject, _⟩ := List.forall₂_zip hmarks harm
    exact ⟨object, hobject⟩
  obtain ⟨result, hresult⟩ := @exists_dispatchArms _ dir _ hdeclared found.1 src
  exact ⟨result, bind_eq_ok_iff.mpr ⟨found, hdisc, hresult⟩⟩

/-- A conversion exists if the models it may call are declared and its unions can be told apart. -/
theorem exists_convert {desc : Descriptor} (src : Expr) (depth : Nat)
    (hdeclared : ∀ path ∈ desc.modelMentions, ∃ object, index.object? path = some object)
    (hdisc : ∀ variants ∈ desc.modelUnions, ∃ found, index.discriminant variants = .ok found) :
    ∃ result, index.convert dir desc src depth = .ok result := by
  fun_induction TypeIndex.convert index dir desc src depth with
  | case1 src depth => exact ⟨_, rfl⟩
  | case2 kind src depth hkind => exact ⟨_, convertScalar_primitive hkind⟩
  | case3 value src depth => exact ⟨_, rfl⟩
  | case4 variants nullable src depth => exact ⟨_, rfl⟩
  | case5 inner attachments src depth ih => exact ih hdeclared hdisc
  | case6 inner src depth ih =>
      obtain ⟨converted, hinner⟩ := ih hdeclared hdisc
      exact ⟨_, bind_eq_ok_iff.mpr ⟨converted, hinner, rfl⟩⟩
  | case7 element src depth var ih =>
      obtain ⟨converted, hinner⟩ := ih hdeclared hdisc
      exact ⟨_, bind_eq_ok_iff.mpr ⟨converted, hinner, rfl⟩⟩
  | case8 key value src depth var ih =>
      obtain ⟨converted, hinner⟩ := ih
        (fun path hpath => hdeclared path (List.mem_append_right _ hpath))
        (fun variants hmem => hdisc variants (List.mem_append_right _ hmem))
      exact ⟨_, bind_eq_ok_iff.mpr ⟨converted, hinner, rfl⟩⟩
  | case9 path src depth =>
      obtain ⟨object, hobject⟩ := hdeclared path List.mem_cons_self
      obtain ⟨call, hcall⟩ := @exists_modelCall _ dir _ _ hobject src
      exact ⟨_, map_eq_ok_iff.mpr ⟨call, hcall, rfl⟩⟩
  | case10 variants nullable src depth =>
      obtain ⟨found, hfound⟩ := hdisc variants List.mem_cons_self
      obtain ⟨result, hresult⟩ := @exists_dispatch _ dir _ _ hfound src
      exact ⟨_, bind_eq_ok_iff.mpr ⟨result, hresult, rfl⟩⟩

/-- A conversion reaches every union inside a well-formed descriptor. -/
theorem discriminant_of_convert {desc : Descriptor} {src : Expr} {depth : Nat}
    {result : Option Expr} (hwell : desc.WellFormed)
    (hconvert : index.convert dir desc src depth = .ok result) :
    ∀ variants ∈ desc.modelUnions, ∃ found, index.discriminant variants = .ok found := by
  intro variants hmem
  fun_induction TypeIndex.convert index dir desc src depth generalizing result with
  | case5 inner attachments src depth ih => exact ih hwell hconvert hmem
  | case6 inner src depth ih =>
      obtain ⟨converted, hinner, _⟩ := bind_eq_ok_iff.mp hconvert
      exact ih hwell.2 hinner hmem
  | case7 element src depth var =>
      rename_i ih
      obtain ⟨converted, hinner, _⟩ := bind_eq_ok_iff.mp hconvert
      exact ih hwell hinner hmem
  | case8 key value src depth var =>
      rename_i ih
      obtain ⟨converted, hinner, _⟩ := bind_eq_ok_iff.mp hconvert
      rw [Descriptor.modelUnions, Descriptor.modelUnions_of_isMappingKey hwell.1] at hmem
      exact ih hwell.2.2 hinner hmem
  | case10 members nullable src depth =>
      cases List.mem_singleton.mp hmem
      obtain ⟨converted, hdispatch, _⟩ := bind_eq_ok_iff.mp hconvert
      obtain ⟨found, hfound, _⟩ := bind_eq_ok_iff.mp hdispatch
      exact ⟨found, hfound⟩
  | _ => cases hmem

/-- The entries of the returned object: one for each field, in order and under its name. -/
theorem convertFields_eq_ok_iff {model : String} {fields : List ObjectField}
    {entries : List ObjectEntry} : index.convertFields dir model fields = .ok entries ↔
      List.Forall₂ (fun field entry => ∃ converted,
        index.convertOrKeep dir field.descriptor (.member (.ident "root") field.name) 1 =
          .ok converted ∧ entry = .property field.name converted) fields entries := by
  induction fields generalizing entries with
  | nil => simp [convertFields, eq_comm]
  | cons field rest ih =>
      rw [convertFields, bind_eq_ok_iff]
      constructor
      · rintro ⟨converted, hconverted, h⟩
        obtain ⟨others, hothers, h⟩ := bind_eq_ok_iff.mp h
        cases pure_eq_ok_iff.mp h
        exact .cons ⟨converted, mapError_eq_ok_iff.mp hconverted, rfl⟩ (ih.mp hothers)
      · intro h
        obtain _ | @⟨_, _, _, others, ⟨converted, hconverted, rfl⟩, hothers⟩ := h
        exact ⟨converted, mapError_eq_ok_iff.mpr hconverted,
          bind_eq_ok_iff.mpr ⟨others, ih.mpr hothers, rfl⟩⟩

/-- Where nothing has to be done, the source is kept. -/
theorem convertOrKeep_eq_ok_iff {desc : Descriptor} {src expr : Expr} {depth : Nat} :
    index.convertOrKeep dir desc src depth = .ok expr ↔
      index.convert dir desc src depth = .ok (some expr) ∨
        index.convert dir desc src depth = .ok none ∧ src = expr := by
  rw [convertOrKeep, bind_eq_ok_iff]
  constructor
  · rintro ⟨converted, hconverted, heq⟩
    cases pure_eq_ok_iff.mp heq
    cases converted with
    | none => exact Or.inr ⟨hconverted, rfl⟩
    | some expr => exact Or.inl hconverted
  · rintro (hconverted | ⟨hconverted, rfl⟩)
    · exact ⟨some expr, hconverted, rfl⟩
    · exact ⟨none, hconverted, rfl⟩

theorem exists_convertOrKeep_iff {desc : Descriptor} {src : Expr} {depth : Nat} :
    (∃ converted, index.convertOrKeep dir desc src depth = .ok converted) ↔
      ∃ result, index.convert dir desc src depth = .ok result := by
  constructor
  · rintro ⟨converted, h⟩
    obtain ⟨result, hresult, _⟩ := bind_eq_ok_iff.mp h
    exact ⟨result, hresult⟩
  · rintro ⟨result, hresult⟩
    exact ⟨_, bind_eq_ok_iff.mpr ⟨result, hresult, rfl⟩⟩

theorem exists_convertFields (model : String) {fields : List ObjectField}
    (h : ∀ field ∈ fields, ∀ src depth, ∃ result,
      index.convert dir field.descriptor src depth = .ok result) :
    ∃ entries, index.convertFields dir model fields = .ok entries := by
  induction fields with
  | nil => exact ⟨[], rfl⟩
  | cons field rest ih =>
      obtain ⟨converted, hconverted⟩ := exists_convertOrKeep_iff.mpr
        (h field List.mem_cons_self (.member (.ident "root") field.name) 1)
      obtain ⟨others, hothers⟩ := ih fun field hfield => h field (List.mem_cons_of_mem _ hfield)
      exact ⟨_, bind_eq_ok_iff.mpr ⟨converted, mapError_eq_ok_iff.mpr hconverted,
        bind_eq_ok_iff.mpr ⟨others, hothers, rfl⟩⟩⟩

/-- What a conversion function is: it takes the value as its root and returns an object. One of the
two is a value of the declared type, the other one of any type. -/
structure Converts (index : TypeIndex) (dir : Direction) (object : ObjectType)
    (function : WireFunction) (entries : List ObjectEntry) : Prop where
  name_eq : function.declared.name = dir.functionName object.name
  doc_eq : function.declared.doc = []
  typed : ∃ source target, function.declared.params = [.typed "root" source] ∧
    function.declared.result = some target ∧
    ∀ ty ∈ [source, target], ty = .primitive .any ∨ ty = .named object.name
  binders_eq : function.declared.params.map TypeScript.Param.binder = [.variable "root"]
  body_eq : function.declared.body = [.ret (some (.object entries))]
  entries_ok : index.convertFields dir object.name object.fields = .ok entries

theorem wireFunction_ok {path : ModelPath} {function : WireFunction}
    (h : index.wireFunction dir path = .ok function) :
    ∃ object entries, index.object? path = some object ∧
      index.Converts dir object function entries := by
  rw [TypeIndex.wireFunction, bind_eq_ok_iff] at h
  obtain ⟨object, hobject, h⟩ := h
  obtain ⟨entries, hentries, h⟩ := bind_eq_ok_iff.mp h
  cases pure_eq_ok_iff.mp h
  refine ⟨object, entries, requireObject_eq_ok_iff.mp hobject, rfl, rfl, ?_, rfl, rfl, hentries⟩
  exact ⟨_, _, rfl, rfl, by cases dir <;> simp⟩

theorem exists_wireFunction {path : ModelPath} {object : ObjectType}
    (hobject : index.object? path = some object)
    (h : ∀ field ∈ object.fields, ∀ src depth, ∃ result,
      index.convert dir field.descriptor src depth = .ok result) :
    ∃ function, index.wireFunction dir path = .ok function := by
  obtain ⟨entries, hentries⟩ := exists_convertFields object.name h
  exact ⟨_, bind_eq_ok_iff.mpr ⟨object, requireObject_eq_ok_iff.mpr hobject,
    bind_eq_ok_iff.mpr ⟨entries, hentries, rfl⟩⟩⟩

end TypeIndex

end SchemaWire
