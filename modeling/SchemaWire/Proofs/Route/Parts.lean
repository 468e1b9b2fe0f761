import SchemaWire.Generate
import SchemaWire.Proofs.Result

/-!
What the routes of a module are made from. A successful wrapper or form comes with the declared
object types that the route matches, sends and returns; the module lists the forms and the wrappers
of its routes.
-/
namespace SchemaWire

open TypeScript (Expr TemplatePart)

/-- Of the fields of this name the field comes first. -/
def ObjectType.FirstNamed (object : ObjectType) (name : String) (field : ObjectField) : Prop :=
  ∃ before after, object.fields = before ++ field :: after ∧ field.name = name ∧
    ∀ earlier ∈ before, earlier.name ≠ name

theorem ObjectType.field?_eq_some_iff {object : ObjectType} {name : String} {field : ObjectField} :
    object.field? name = some field ↔ object.FirstNamed name field := by
  rw [field?, List.find?_eq_some_iff_append]
  constructor
  · rintro ⟨hname, before, after, hfields, hbefore⟩
    exact ⟨before, after, hfields, by simpa using hname, by simpa using hbefore⟩
  · rintro ⟨before, after, hfields, hname, hbefore⟩
    exact ⟨by simpa using hname, before, after, hfields, by simpa using hbefore⟩

theorem ObjectType.FirstNamed.mem {object : ObjectType} {name : String} {field : ObjectField}
    (h : object.FirstNamed name field) : field ∈ object.fields ∧ field.name = name := by
  obtain ⟨before, after, hfields, hname, _⟩ := h
  exact ⟨by simp [hfields], hname⟩

namespace RouteDef

variable {index : TypeIndex} {route : RouteDef} {routes : List RouteDef}

theorem lift_eq_ok_iff {α : Type} {x : Except RouteFault α} {a : α} :
    route.lift x = .ok a ↔ x = .ok a := by
  cases x <;> simp [lift, invalid]

/-- The model of a route that has one has to be declared. -/
theorem object?_eq_ok_iff {path : Option ModelPath} {found : Option ObjectType} :
    object? index path = .ok found ↔
      (∀ source ∈ path.toList, (index.object? source).isSome = true) ∧
        found = path.bind index.object? := by
  cases path with
  | none => simp [object?, @eq_comm _ found]
  | some source =>
      cases hobject : index.object? source <;>
        simp [object?, TypeIndex.requireObject, hobject, @eq_comm _ found]

theorem exists_declared {path : ModelPath} {found : Option ObjectType}
    (h : object? index (some path) = .ok found) :
    ∃ object, index.object? path = some object ∧ found = some object := by
  obtain ⟨hdeclared, rfl⟩ := object?_eq_ok_iff.mp h
  obtain ⟨object, hobject⟩ := Option.isSome_iff_exists.mp (hdeclared path (by simp))
  exact ⟨object, hobject, hobject⟩

/-- The object type of a model of a route is the declared one. -/
theorem mem_object?_iff {path : Option ModelPath} {found : Option ObjectType}
    (h : object? index path = .ok found) {object : ObjectType} :
    object ∈ found ↔ ∃ source ∈ path, index.object? source = some object := by
  rw [(object?_eq_ok_iff.mp h).2, Option.mem_def, Option.bind_eq_some_iff]
  rfl

theorem isSome_object? {path : Option ModelPath} {found : Option ObjectType}
    (h : object? index path = .ok found) : found.isSome = path.isSome := by
  cases path with
  | none =>
      cases h
      rfl
  | some source =>
      obtain ⟨object, _, rfl⟩ := map_eq_ok_iff.mp h
      rfl

/-- The arguments of a wrapper hold the declared types of the models that the route matches and
sends. -/
theorem forall_mem_arguments_iff {matchInfo body : Option ObjectType}
    (hmatchInfo : object? index route.matchInfo = .ok matchInfo)
    (hbody : object? index route.body = .ok body) {holds : ObjectType → Prop} :
    (∀ arg ∈ arguments matchInfo body, holds arg.2) ↔
      ∀ path ∈ route.matchInfo.toList ++ route.body.toList, ∀ object,
        index.object? path = some object → holds object := by
  have hmodels : ∀ {path : Option ModelPath} {found : Option ObjectType},
      object? index path = .ok found → ((∀ object ∈ found, holds object) ↔ ∀ source ∈ path,
        ∀ object, index.object? source = some object → holds object) := by
    intro path found hfound
    simp only [mem_object?_iff hfound]
    exact ⟨fun h source hsource object hobject => h object ⟨source, hsource, hobject⟩,
      fun h object ⟨source, hsource, hobject⟩ => h source hsource object hobject⟩
  simp only [arguments, List.forall_mem_append, List.forall_mem_map, Option.mem_toList]
  exact and_congr (hmodels hmatchInfo) (hmodels hbody)

/-- A path parameter is the converted field of its name, if that holds a scalar. -/
theorem paramValue_eq_ok_iff {matchInfo : Option ObjectType} {name : String} {wire : Expr} :
    route.paramValue index matchInfo name = .ok wire ↔
      ∃ object ∈ matchInfo, ∃ field, object.FirstNamed name field ∧
        field.descriptor.isPathScalar = true ∧
        index.convertOrKeep .toWire field.descriptor (.member (.ident "matchInfo") name) 1 =
          .ok wire := by
  unfold paramValue
  simp only [← ObjectType.field?_eq_some_iff]
  cases matchInfo with
  | none => simp [invalid]
  | some object =>
      cases hfield : object.field? name with
      | none => simp [invalid, hfield]
      | some field =>
          cases hscalar : field.descriptor.isPathScalar <;>
            simp [invalid, hfield, hscalar, mapError_eq_ok_iff]

theorem pathParts_text_eq_ok_iff {matchInfo : Option ObjectType} {value : String}
    {rest : List PathSegment} {parts : List TemplatePart} :
    route.pathParts index matchInfo (.text value :: rest) = .ok parts ↔
      ∃ others, route.pathParts index matchInfo rest = .ok others ∧
        .text value :: others = parts := by
  simp only [pathParts, bind_eq_ok_iff, pure_eq_ok_iff]

theorem pathParts_param_eq_ok_iff {matchInfo : Option ObjectType} {name : String}
    {rest : List PathSegment} {parts : List TemplatePart} :
    route.pathParts index matchInfo (.param name :: rest) = .ok parts ↔
      ∃ wire, route.paramValue index matchInfo name = .ok wire ∧
        ∃ others, route.pathParts index matchInfo rest = .ok others ∧
          .hole (encodedParam wire) :: others = parts := by
  simp only [pathParts, bind_eq_ok_iff, pure_eq_ok_iff]

/-- The wrapper of a route whose models and URL are known. -/
def wrapperOf (route : RouteDef) (matchInfo body response : Option ObjectType)
    (parts : List TemplatePart) : TypeScript.Function where
  name := route.name
  doc := route.docLines (arguments matchInfo body)
  params := ((arguments matchInfo body).map fun arg => .typed arg.1 (.named arg.2.name)) ++
    [⟨.variable "options", some (.named "RequestInit"), true⟩]
  result := some (resultTy response)
  body := (route.queryOf body).1 ++ [
    .const "res" none (.await (callNamed "fetch"
      [urlOf (parts ++ (route.queryOf body).2), route.requestOptions body])),
    throwUnlessOk, returnOf response]
  isAsync := true
  isExported := true

/-- A wrapper can be written if its name is an identifier, its models are declared and the parts of
its URL are known. -/
theorem wrapper_eq_ok_iff {function : TypeScript.Function} :
    route.wrapper index = .ok function ↔
      TypeScript.isIdentifier route.name = true ∧ ∃ matchInfo body response segments parts,
        object? index route.matchInfo = .ok matchInfo ∧ object? index route.body = .ok body ∧
        object? index route.response = .ok response ∧
        PathSegment.parse route.path = .ok segments ∧
        route.pathParts index matchInfo segments = .ok parts ∧
        function = route.wrapperOf matchInfo body response parts := by
  unfold wrapper
  cases hname : TypeScript.isIdentifier route.name with
  | false => simp [invalid, bind, Except.bind]
  | true =>
      constructor
      · intro h
        obtain ⟨matchInfo, hmatchInfo, h⟩ := bind_eq_ok_iff.mp h
        obtain ⟨body, hbody, h⟩ := bind_eq_ok_iff.mp h
        obtain ⟨response, hresponse, h⟩ := bind_eq_ok_iff.mp h
        obtain ⟨segments, hsegments, h⟩ := bind_eq_ok_iff.mp h
        obtain ⟨parts, hparts, h⟩ := bind_eq_ok_iff.mp h
        exact ⟨rfl, matchInfo, body, response, segments, parts, hmatchInfo, hbody, hresponse,
          lift_eq_ok_iff.mp hsegments, hparts, (pure_eq_ok_iff.mp h).symm⟩
      · rintro ⟨_, matchInfo, body, response, segments, parts, hmatchInfo, hbody, hresponse,
          hsegments, hparts, rfl⟩
        refine bind_eq_ok_iff.mpr ⟨matchInfo, hmatchInfo, bind_eq_ok_iff.mpr ⟨body, hbody, ?_⟩⟩
        refine bind_eq_ok_iff.mpr ⟨response, hresponse, bind_eq_ok_iff.mpr ⟨segments, ?_, ?_⟩⟩
        · exact lift_eq_ok_iff.mpr hsegments
        · exact bind_eq_ok_iff.mpr ⟨parts, hparts, rfl⟩

theorem wrapper_parts {function : TypeScript.Function} (h : route.wrapper index = .ok function) :
    ∃ matchInfo body response segments parts,
      object? index route.matchInfo = .ok matchInfo ∧ object? index route.body = .ok body ∧
      object? index route.response = .ok response ∧
      route.pathParts index matchInfo segments = .ok parts ∧
      function = route.wrapperOf matchInfo body response parts := by
  obtain ⟨_, matchInfo, body, response, segments, parts, hmatchInfo, hbody, hresponse, _, hparts,
    heq⟩ := wrapper_eq_ok_iff.mp h
  exact ⟨matchInfo, body, response, segments, parts, hmatchInfo, hbody, hresponse, hparts, heq⟩

theorem mem_of_mergeFields {merged fields result : List ObjectField}
    (h : mergeFields merged fields = .ok result) :
    ∀ field ∈ result, field ∈ merged ∨ field ∈ fields := by
  induction fields generalizing merged with
  | nil =>
      cases h
      exact fun field hfield => Or.inl hfield
  | cons head rest ih =>
      rw [mergeFields] at h
      intro field hfield
      split at h
      · rcases ih h field hfield with hmerged | hrest
        · rcases List.mem_append.mp hmerged with hold | hnew
          · exact Or.inl hold
          · exact Or.inr (List.mem_cons.mpr (Or.inl (List.mem_singleton.mp hnew)))
        · exact Or.inr (List.mem_cons_of_mem _ hrest)
      · split at h
        · exact (ih h field hfield).imp_right (List.mem_cons_of_mem _)
        · cases h

/-- A route that matches or sends something has a form, of the merged fields of both. -/
theorem form_cases {form : Option ObjectType} (h : route.form index = .ok form) :
    (route.hasForm = false ∧ form = none) ∨ ∃ matchInfo body merged,
      route.hasForm = true ∧ object? index route.matchInfo = .ok matchInfo ∧
        object? index route.body = .ok body ∧
        mergeFields [] ((fieldsOf matchInfo ++ fieldsOf body).map ObjectField.inForm) =
          .ok merged ∧ form = some ⟨route.formName, none, merged, false⟩ := by
  obtain ⟨matchInfo, hmatchInfo, h⟩ := bind_eq_ok_iff.mp h
  obtain ⟨body, hbody, h⟩ := bind_eq_ok_iff.mp h
  split at h
  · rename_i hform
    obtain ⟨merged, hmerged, h⟩ := bind_eq_ok_iff.mp h
    exact Or.inr ⟨matchInfo, body, merged, hform, hmatchInfo, hbody, lift_eq_ok_iff.mp hmerged,
      (pure_eq_ok_iff.mp h).symm⟩
  · rename_i hform
    exact Or.inl ⟨by simpa using hform, (pure_eq_ok_iff.mp h).symm⟩

/-- A form has fields of the models that its route matches and sends. -/
theorem form_parts {form : Option ObjectType} (h : route.form index = .ok form) :
    ∀ object ∈ form, ∀ field ∈ object.fields,
      ∃ path ∈ route.matchInfo.toList ++ route.body.toList, ∃ source,
        index.object? path = some source ∧ ∃ origin ∈ source.fields, field = origin.inForm := by
  rcases form_cases h with ⟨_, rfl⟩ | ⟨matchInfo, body, merged, _, hmatchInfo, hbody, hmerged, rfl⟩
  · rintro _ ⟨⟩
  rintro _ ⟨⟩ field hfield
  have hin := mem_of_mergeFields hmerged field hfield
  obtain ⟨origin, horigin, rfl⟩ := List.mem_map.mp (hin.resolve_left List.not_mem_nil)
  have hsource : ∀ {path : Option ModelPath} {found : Option ObjectType},
      object? index path = .ok found → origin ∈ fieldsOf found →
        ∃ source ∈ path, ∃ object, index.object? source = some object ∧
          origin ∈ object.fields := by
    intro path found hfound hin
    cases found with
    | none => cases hin
    | some object =>
        obtain ⟨source, hpath, hobject⟩ := (mem_object?_iff hfound).mp rfl
        exact ⟨source, hpath, object, hobject, hin⟩
  rcases List.mem_append.mp horigin with hfirst | hsecond
  · obtain ⟨path, hpath, object, hobject, hin⟩ := hsource hmatchInfo hfirst
    exact ⟨path, by simp [Option.mem_def.mp hpath], object, hobject, origin, hin, rfl⟩
  · obtain ⟨path, hpath, object, hobject, hin⟩ := hsource hbody hsecond
    exact ⟨path, by simp [Option.mem_def.mp hpath], object, hobject, origin, hin, rfl⟩

/-- The forms of a module are those that its routes have, in order. -/
theorem forms_eq_ok_iff {declared : List ObjectType} :
    forms index routes = .ok declared ↔ ∃ found,
      List.Forall₂ (fun route form => route.form index = .ok form) routes found ∧
        declared = found.flatMap Option.toList := by
  induction routes generalizing declared with
  | nil => simp [forms, eq_comm]
  | cons route rest ih =>
      rw [forms, bind_eq_ok_iff]
      constructor
      · rintro ⟨form, hform, h⟩
        obtain ⟨others, hothers, h⟩ := bind_eq_ok_iff.mp h
        obtain ⟨found, hfound, rfl⟩ := ih.mp hothers
        exact ⟨form :: found, .cons hform hfound, (pure_eq_ok_iff.mp h).symm⟩
      · rintro ⟨_, hall, rfl⟩
        cases hall with
        | @cons _ form _ found hform hfound =>
            exact ⟨form, hform, bind_eq_ok_iff.mpr ⟨_, ih.mpr ⟨found, hfound, rfl⟩, rfl⟩⟩

theorem mem_of_forms {declared : List ObjectType} (h : forms index routes = .ok declared) :
    ∀ object ∈ declared, ∃ route ∈ routes, route.form index = .ok (some object) := by
  obtain ⟨found, hfound, rfl⟩ := forms_eq_ok_iff.mp h
  intro object hobject
  obtain ⟨form, hform, hin⟩ := List.mem_flatMap.mp hobject
  obtain ⟨route, hroute, hok⟩ := exists_left_of_forall₂ hfound form hform
  rw [Option.mem_toList.mp hin] at hok
  exact ⟨route, hroute, hok⟩

/-- The wrappers of a module are those of its routes, in order. -/
theorem wrappers_eq_ok_iff {functions : List TypeScript.Function} :
    wrappers index routes = .ok functions ↔
      List.Forall₂ (fun route function => route.wrapper index = .ok function)
        routes functions := by
  induction routes generalizing functions with
  | nil => simp [wrappers, eq_comm]
  | cons route rest ih =>
      rw [wrappers, bind_eq_ok_iff]
      constructor
      · rintro ⟨wrapper, hwrapper, h⟩
        obtain ⟨others, hothers, h⟩ := bind_eq_ok_iff.mp h
        cases pure_eq_ok_iff.mp h
        exact .cons hwrapper (ih.mp hothers)
      · intro hall
        cases hall with
        | cons hwrapper hothers =>
            exact ⟨_, hwrapper, bind_eq_ok_iff.mpr ⟨_, ih.mpr hothers, rfl⟩⟩

theorem exists_wrapper {functions : List TypeScript.Function}
    (h : wrappers index routes = .ok functions) :
    ∀ route ∈ routes, ∃ function, route.wrapper index = .ok function := by
  intro route hroute
  obtain ⟨function, _, hwrapper⟩ :=
    exists_right_of_forall₂ (wrappers_eq_ok_iff.mp h) route hroute
  exact ⟨function, hwrapper⟩

theorem mem_wrappers_iff {functions : List TypeScript.Function}
    (h : wrappers index routes = .ok functions) (function : TypeScript.Function) :
    function ∈ functions ↔ ∃ route ∈ routes, route.wrapper index = .ok function := by
  have hwrappers := wrappers_eq_ok_iff.mp h
  refine ⟨exists_left_of_forall₂ hwrappers function, ?_⟩
  rintro ⟨route, hroute, hwrapper⟩
  obtain ⟨other, hother, hsame⟩ := exists_right_of_forall₂ hwrappers route hroute
  rwa [Except.ok.inj (hwrapper.symm.trans hsame)]

end RouteDef

/-- What the parts of a module are. -/
theorem TypeIndex.module_parts {index : TypeIndex} {routes : List RouteDef}
    {module : TypeScript.Module} (h : index.module routes = .ok module) :
    ∃ forms wrappers, RouteDef.forms index routes = .ok forms ∧
      RouteDef.wrappers index routes = .ok wrappers ∧
      module.preamble = RouteHelpers.forRoutes routes ++
        (if index.needsUnreachable then [RouteHelpers.unreachable] else []) ∧
      module.types = index.enums.typeDecls ++
        (index.objects.map fun entry => entry.2.typeDecl) ++ forms.map ObjectType.typeDecl ∧
      module.functions = ((index.fromWire ++ index.toWire).map fun entry =>
        .function entry.2.declared) ++ wrappers.map .function := by
  obtain ⟨_, _, h⟩ := bind_eq_ok_iff.mp h
  obtain ⟨forms, hforms, h⟩ := bind_eq_ok_iff.mp h
  obtain ⟨wrappers, hwrappers, h⟩ := bind_eq_ok_iff.mp h
  cases pure_eq_ok_iff.mp h
  exact ⟨forms, wrappers, hforms, hwrappers, rfl, rfl, rfl⟩

end SchemaWire
