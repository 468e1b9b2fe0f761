import SchemaWire.Proofs.Route.BuiltIn
import SchemaWire.Proofs.Semantics.AnyProgram

/-!
Bodies of failed responses. The error class decodes a body after three tests: it is an object, it is
not `null`, and its errors are a list. The items of that list are not tested. The main statement
says of every body, whatever it holds, whether it is decoded: the tests always come to an end, and a
body that passes them is decoded if and only if no item of the list is `undefined` or `null`;
otherwise decoding it reads a property of such an item.
-/
namespace SchemaWire

open TypeScript (Expr Fault Operand Value invokeWith)

/-! The tests. -/

namespace TypeScript

inductive BodyTest where
  | hasType (name : String)
  | notNull
  | hasList (property : String)

def BodyTest.print : BodyTest → String
  | hasType name => "typeof body === \"" ++ name ++ "\""
  | notNull => "body !== null"
  | hasList property =>
      "Array.isArray((body as \x7b " ++ property ++ "?: unknown \x7d)." ++ property ++ ")"

/-- The name of the type of a value; `null` goes by that of objects. -/
def Value.typeName : Value → String
  | scalar .undefined => "undefined"
  | scalar (.bool _) => "boolean"
  | scalar (.number _) => "number"
  | scalar (.string _) => "string"
  | _ => "object"

def Operand.isList : Operand → Bool
  | value (.list _) => true
  | _ => false

def Value.isNull : Value → Bool
  | scalar .null => true
  | _ => false

theorem Value.isNull_iff {value : Value} : value.isNull = true ↔ value = .null := by
  unfold isNull
  split <;> simp_all [null]

theorem Value.isNullish_of_typeName {value : Value} (htype : value.typeName = "object")
    (hnull : value.isNull = false) : value.isNullish = false := by
  cases value with
  | scalar constant =>
      cases constant with
      | undefined => simp [typeName] at htype
      | null => cases hnull
      | _ => rfl
  | _ => rfl

variable (member : Operand → String → Except Fault Operand)

def BodyTest.eval : BodyTest → Value → Except Fault Bool
  | hasType name, body => .ok (body.typeName == name)
  | notNull, body => .ok !body.isNull
  | hasList property, body => Operand.isList <$> member (.value body) property

/-- Whether a body passes tests one after the other. The first that it fails is the last one. -/
def passesAll : List BodyTest → Value → Except Fault Bool
  | [], _ => .ok true
  | test :: rest, body => do
      let passed ← test.eval member body
      if passed then passesAll rest body else return false

variable {member} {test : BodyTest} {rest : List BodyTest} {body : Value}

theorem passesAll_of_passed (h : test.eval member body = .ok true) :
    passesAll member (test :: rest) body = passesAll member rest body := by
  rw [passesAll, h]
  rfl

theorem passesAll_of_failed (h : test.eval member body = .ok false) :
    passesAll member (test :: rest) body = .ok false := by
  rw [passesAll, h]
  rfl

end TypeScript

open TypeScript (BodyTest passesAll)

namespace ValidationModels

/-- The tests that the error class makes before it decodes a body. -/
def guardTests : List BodyTest :=
  [.hasType "object", .notNull, .hasList "errors"]

/-- A guard that returns what tests give. -/
def guardOf (tests : List BodyTest) : TypeScript.Declaration :=
  RouteHelpers.block [
    "function " ++ HelperName.isValidationErrorResponse ++ "(body: unknown): boolean \x7b",
    "  return " ++ TypeScript.joinWith " && " (tests.map BodyTest.print) ++ ";",
    "\x7d"]

theorem validationGuard_eq : RouteHelpers.validationGuard = guardOf guardTests := by
  have htests : "  return " ++ TypeScript.joinWith " && " (guardTests.map BodyTest.print) ++ ";" =
      "  return typeof body === \"object\" && body !== null && " ++
        "Array.isArray((body as \x7b errors?: unknown \x7d).errors);" := by decide
  rw [guardOf, htests, RouteHelpers.validationGuard]

variable {inherited : Value → String → Value}

/-- The tests come to an end for every body. -/
theorem exists_passesAll_guardTests (inherited : Value → String → Value) (body : Value) :
    ∃ passed, passesAll (Operand.memberOf inherited) guardTests body = .ok passed ∧
      (passed = true ↔ body.typeName = "object" ∧ ∃ items,
        (Operand.value body).memberOf inherited "errors" = .ok (.value (.list items))) := by
  have htype : BodyTest.eval (Operand.memberOf inherited) (.hasType "object") body =
      .ok (body.typeName == "object") := rfl
  have hnull : BodyTest.eval (Operand.memberOf inherited) .notNull body = .ok !body.isNull := rfl
  by_cases hobject : body.typeName = "object"
  · rw [hobject, beq_self_eq_true] at htype
    rw [guardTests, TypeScript.passesAll_of_passed htype]
    cases hbody : body.isNull with
    | true =>
        obtain rfl := Value.isNull_iff.mp hbody
        refine ⟨false, TypeScript.passesAll_of_failed hnull, ?_⟩
        have hnone : (Operand.value .null).memberOf inherited "errors" = .error .typeError :=
          Operand.memberOf_of_isNullish inherited rfl "errors"
        simp [hnone]
    | false =>
        rw [hbody] at hnull
        have hname : "errors" ≠ "map" ∧ "errors" ≠ "getTime" := by decide
        obtain ⟨found, hfound⟩ := Operand.exists_memberOf inherited
          (Value.isNullish_of_typeName hobject hbody) hname
        have hlist : BodyTest.eval (Operand.memberOf inherited) (.hasList "errors") body =
            .ok (Operand.value found).isList := by
          rw [BodyTest.eval, hfound]
          rfl
        rw [TypeScript.passesAll_of_passed hnull, hfound]
        cases found with
        | list items =>
            exact ⟨true, TypeScript.passesAll_of_passed hlist, by simp [hobject]⟩
        | _ => exact ⟨false, TypeScript.passesAll_of_failed hlist, by simp⟩
  · have hother : (body.typeName == "object") = false := by simpa using hobject
    rw [hother] at htype
    exact ⟨false, TypeScript.passesAll_of_failed htype, by simp [hobject]⟩

/-! What the built-in models declare. -/

/-- No field of an error is converted. -/
theorem fields_of_error {object : ObjectType} (h : graph.Declares error object) :
    object.fields.map ObjectField.name = ["type", "loc", "msg", "input", "ctx"] ∧
      ∀ field ∈ object.fields, ∀ (index : TypeIndex) (dir : Direction) (src : Expr) (depth : Nat),
        index.convert dir field.descriptor src depth = .ok none := by
  obtain ⟨model, hmodel, hdeclares⟩ := h.model
  obtain rfl := Option.some.inj hmodel
  refine ⟨hdeclares.names_eq, fun field hfield index dir src depth => ?_⟩
  obtain ⟨declared, hdeclared, hclass⟩ := exists_left_of_forall₂ hdeclares.fields field hfield
  have hclass := hclass.classified
  simp only [List.mem_cons, List.not_mem_nil, or_false] at hdeclared
  rcases hdeclared with rfl | rfl | rfl | rfl | rfl <;>
    rw [← Except.ok.inj hclass] <;> rfl

/-- The errors of a response are a list of errors. -/
theorem fields_of_response {object : ObjectType} (h : graph.Declares response object) :
    ∃ field, object.fields = [field] ∧ field.name = "errors" ∧
      field.descriptor = .list (.model error) := by
  obtain ⟨model, hmodel, hdeclares⟩ := h.model
  obtain rfl := Option.some.inj hmodel
  have hfields := hdeclares.fields
  generalize object.fields = fields at hfields
  obtain _ | @⟨_, field, _, rest, hfield, hrest⟩ := hfields
  cases hrest
  exact ⟨field, rfl, hfield.name_eq, (Except.ok.inj hfield.classified).symm⟩

variable {index : TypeIndex} {object : ObjectType}

/-- Decoding an item of the list reads its fields, and so fails of `undefined` and of `null`. -/
theorem decode_error (hsound : index.Sound) (hobject : index.object? error = some object)
    (hdeclares : graph.Declares error object) (inherited : Value → String → Value) (depth : Nat)
    (item : Value) :
    (item.isNullish = true → index.decode inherited (depth + 1) error item = .error .typeError) ∧
      (item.isNullish = false →
        ∃ result, index.decode inherited (depth + 1) error item = .ok result) := by
  obtain ⟨entries, hentries, hinvoke⟩ := hsound.exists_invokeWith hobject .fromWire
  obtain ⟨hnames, hkept⟩ := fields_of_error hdeclares
  rw [TypeIndex.convertFields_of_kept (fun field hfield => hkept field hfield index .fromWire),
    hnames, Except.ok.injEq] at hentries
  subst hentries
  rw [TypeIndex.decode, ← hdeclares.name_eq, hinvoke]
  constructor
  · intro hitem
    rw [TypeScript.evalEntriesWith_of_isNullish hitem (by simp)]
    rfl
  · intro hitem
    have hmethods : ∀ name ∈ ["type", "loc", "msg", "input", "ctx"],
        name ≠ "map" ∧ name ≠ "getTime" := by decide
    obtain ⟨results, hresults⟩ := TypeScript.exists_evalEntriesWith inherited
      (invokeWith (.inheriting inherited) index.program depth) hitem hmethods
    rw [hresults]
    exact ⟨_, rfl⟩

/-- Decoding a body decodes the items of its list. -/
theorem decode_response {errorObject : ObjectType} (hsound : index.Sound)
    (hobject : index.object? response = some object) (hdeclares : graph.Declares response object)
    (herror : index.object? error = some errorObject) (hname : errorObject.name = error.shortName)
    {inherited : Value → String → Value} {body : Value} {items : List Value}
    (hitems : (Operand.value body).memberOf inherited "errors" = .ok (.value (.list items)))
    (depth : Nat) :
    index.decode inherited (depth + 1) response body =
      (fun results => .ofLiteral [("errors", .list results)]) <$>
        items.mapM (index.decode inherited depth error) := by
  obtain ⟨entries, hentries, hinvoke⟩ := hsound.exists_invokeWith hobject .fromWire
  obtain ⟨field, hfields, hfieldName, hdescriptor⟩ := fields_of_response hdeclares
  have hcall : index.modelCall .fromWire error (.ident (valueVar 1)) = .ok (.call
      (.ident (Direction.fromWire.functionName error.shortName)) [.ident (valueVar 1)]) := by
    rw [TypeIndex.modelCall, TypeIndex.requireObject_eq_ok_iff.mpr herror, ← hname]
    rfl
  -- The one field is a list of models: its items go through the function of their model.
  have hentries : entries = [.property "errors" (convertItems (.member (.ident "root") "errors")
      (valueVar 1) (.primitive .any) (.call
        (.ident (Direction.fromWire.functionName error.shortName)) [.ident (valueVar 1)]))] := by
    rw [hfields, TypeIndex.convertFields, TypeIndex.convertOrKeep, hdescriptor, hfieldName,
      TypeIndex.convert, TypeIndex.convert, hcall] at hentries
    exact (Except.ok.inj hentries).symm
  subst hentries
  have hsrc : (Expr.member (.ident "root") "errors").evalWith (.inheriting inherited)
      (invokeWith (.inheriting inherited) index.program depth) [("root", body)] =
        .ok (.value (.list items)) := by
    rw [Expr.evalWith, Expr.evalWith]
    exact hitems
  have hitem : ∀ item, ((Expr.call (.ident (Direction.fromWire.functionName error.shortName))
      [.ident (valueVar 1)]).evalWith (.inheriting inherited)
        (invokeWith (.inheriting inherited) index.program depth)
        [(valueVar 1, item), ("root", body)] >>= Operand.toValue) =
          index.decode inherited depth error item :=
    fun item => TypeScript.evalWith_call rfl rfl
  rw [TypeIndex.decode, ← hdeclares.name_eq, hinvoke, Expr.evalEntriesWith,
    TypeScript.evalWith_convertItems hsrc, Expr.evalEntriesWith]
  simp only [hitem]
  generalize List.mapM (m := Except Fault) _ items = results
  cases results <;> rfl

/-- A body whose errors are a list is decoded if and only if every item has properties. -/
theorem decode_response_cases {errorObject : ObjectType} (hsound : index.Sound)
    (hobject : index.object? response = some object) (hdeclares : graph.Declares response object)
    (herror : index.object? error = some errorObject) (herrors : graph.Declares error errorObject)
    {inherited : Value → String → Value} {body : Value} {items : List Value}
    (hitems : (Operand.value body).memberOf inherited "errors" = .ok (.value (.list items)))
    (depth : Nat) :
    ((∃ value, index.decode inherited (depth + 2) response body = .ok value) ↔
        ∀ item ∈ items, item.isNullish = false) ∧
      ((∃ item ∈ items, item.isNullish = true) →
        index.decode inherited (depth + 2) response body = .error .typeError) := by
  have hitem := decode_error hsound herror herrors inherited depth
  obtain ⟨hfails, hresults⟩ :=
    mapM_of_fails (fun item => (hitem item).1) (fun item => (hitem item).2) items
  rw [decode_response hsound hobject hdeclares herror herrors.name_eq hitems]
  refine ⟨⟨?_, fun hvalues => ?_⟩, fun hnullish => ?_⟩
  · rintro ⟨value, hdecoded⟩ item hmem
    by_contra hnot
    rw [hfails ⟨item, hmem, by simpa using hnot⟩] at hdecoded
    cases hdecoded
  · obtain ⟨results, hresults⟩ := hresults hvalues
    rw [hresults]
    exact ⟨_, rfl⟩
  · rw [hfails hnullish]
    rfl

/-- In the index of a module with routes both models are declared as they are built in. -/
theorem exists_declares {roots : List ModelPath} {routes : List RouteDef}
    {whole : ModelGraph} (hindex : indexFor whole roots routes = .ok index)
    (hroutes : routes ≠ [])
    (hdefined : ∀ path ∈ [response, error],
      Reachable whole.references (roots ++ routes.flatMap RouteDef.models) path →
        DefinedBy whole path) :
    ∀ path ∈ [response, error], ∃ object,
      index.object? path = some object ∧ graph.Declares path object := by
  obtain ⟨builtIn, hbuiltIn, hpaths⟩ := exists_register
  have hextends := extends_of_definedBy hindex hroutes hbuiltIn (hpaths ▸ hdefined)
  obtain ⟨_, hcovers⟩ := TypeIndex.register_ok hbuiltIn
  intro path hpath
  obtain ⟨object, hobject⟩ := TypeIndex.exists_object_iff.mpr (hpaths ▸ hpath)
  exact ⟨object, hextends path object hobject, hcovers.object_declares hobject⟩

end ValidationModels

/-- In a module with routes, where the graph has the built-in models only as they are, every body is
tested to the end before it is decoded, and passes only if its errors are a list. Decoding it then
ends in a value if no item of the list is `undefined` or `null`, and reads a property of such an
item otherwise, whatever values inherit. -/
theorem generate_decodes_errors_iff {graph : ModelGraph} {roots : List ModelPath}
    {routes : List RouteDef} {generated : Generated}
    (h : generate graph roots routes = .ok generated) (hroutes : routes ≠ [])
    (hdefined : ∀ path ∈ [ValidationModels.response, ValidationModels.error],
      Reachable graph.references (roots ++ routes.flatMap RouteDef.models) path →
        ValidationModels.DefinedBy graph path) :
    ∃ index module, indexFor graph roots routes = .ok index ∧ index.module routes = .ok module ∧
      generated.code = module.print ∧ ValidationModels.DecodedBy module index ∧
      ValidationModels.guardOf ValidationModels.guardTests ∈ module.preamble ∧
      ∀ (inherited : Value → String → Value) (body : Value), ∃ passed,
        passesAll (Operand.memberOf inherited) ValidationModels.guardTests body = .ok passed ∧
        (passed = true → ∃ items,
          (Operand.value body).memberOf inherited "errors" = .ok (.value (.list items)) ∧
          ∀ depth,
            ((∃ value, index.decode inherited (depth + 2) ValidationModels.response body =
                .ok value) ↔ ∀ item ∈ items, item.isNullish = false) ∧
            ((∃ item ∈ items, item.isNullish = true) →
              index.decode inherited (depth + 2) ValidationModels.response body =
                .error .typeError)) := by
  obtain ⟨index, module, hindex, hmodule, rfl⟩ := generate_eq_ok_iff.mp h
  have hsound := sound_indexFor hindex
  have hobjects := ValidationModels.exists_declares hindex hroutes hdefined
  obtain ⟨object, hobject, hdeclares⟩ := hobjects ValidationModels.response (by simp)
  obtain ⟨errorObject, herror, herrors⟩ := hobjects ValidationModels.error (by simp)
  refine ⟨index, module, hindex, hmodule, rfl, ValidationModels.decodedBy hindex hroutes hmodule,
    ?_, fun inherited body => ?_⟩
  · obtain ⟨_, _, _, _, hpreamble, _⟩ := TypeIndex.module_parts hmodule
    rw [hpreamble, RouteHelpers.forRoutes, if_neg (by simpa using hroutes),
      ← ValidationModels.validationGuard_eq]
    simp
  · obtain ⟨passed, hpassed, hiff⟩ :=
      ValidationModels.exists_passesAll_guardTests inherited body
    refine ⟨passed, hpassed, fun htrue => ?_⟩
    obtain ⟨_, items, hitems⟩ := hiff.mp htrue
    exact ⟨items, hitems, fun depth =>
      ValidationModels.decode_response_cases hsound hobject hdeclares herror herrors hitems depth⟩

/-- A body that lists `null`. -/
def nullBody : Value :=
  .object [("errors", .list [.null])]

/-- A body that lists a number. -/
def numberBody : Value :=
  .object [("errors", .list [.scalar (.number 5)])]

/-- Both bodies pass the tests. Decoding fails of the first one, and not of the second. -/
theorem generate_decodes_errors_iff_null :
    ∃ generated index value, generate (.ofList []) [] [checkRoute] = .ok generated ∧
      indexFor (.ofList []) [] [checkRoute] = .ok index ∧
      (∀ body ∈ [nullBody, numberBody],
        passesAll (Operand.memberOf fun _ _ => .scalar .undefined)
          ValidationModels.guardTests body = .ok true) ∧
      index.decode (fun _ _ => .scalar .undefined) 2 ValidationModels.response nullBody =
        .error .typeError ∧
      index.decode (fun _ _ => .scalar .undefined) 2 ValidationModels.response numberBody =
        .ok value := by
  have hok : (generate (.ofList []) [] [checkRoute]).toOption.isSome = true := by
    have hroots : withRouteModels [] [checkRoute] = [] := by decide +kernel
    simp only [generate, indexFor, hroots, TypeIndex.register, TypeIndex.addRoots,
      TypeIndex.addRoot, TypeIndex.visit_eq_visitWithin]
    decide +kernel
  obtain ⟨generated, hgenerated⟩ := exists_ok_of_isSome hok
  have hnothing : ∀ path, ¬Reachable (ModelGraph.ofList []).references
      ([] ++ [checkRoute].flatMap RouteDef.models) path := by
    intro path hpath
    refine @Reachable.holds _ _ _ (fun _ => False) ?_ (fun _ h => h.elim) _ hpath
    simp [checkRoute, RouteDef.models]
  obtain ⟨index, module, hindex, _, _, _, _, hbodies⟩ := generate_decodes_errors_iff hgenerated
    (by decide) fun path _ hpath => absurd hpath (hnothing path)
  let inherited : Value → String → Value := fun _ _ => .scalar .undefined
  have hdecoded : ∀ items,
      passesAll (Operand.memberOf inherited) ValidationModels.guardTests
          (.object [("errors", .list items)]) = .ok true ∧
        ((∃ value, index.decode inherited 2 ValidationModels.response
          (.object [("errors", .list items)]) = .ok value) ↔
            ∀ item ∈ items, item.isNullish = false) ∧
        ((∃ item ∈ items, item.isNullish = true) → index.decode inherited 2
          ValidationModels.response (.object [("errors", .list items)]) = .error .typeError) := by
    intro items
    obtain ⟨passed, hpassed, himplies⟩ := hbodies inherited (.object [("errors", .list items)])
    have htrue : passesAll (Operand.memberOf inherited) ValidationModels.guardTests
        (.object [("errors", .list items)]) = .ok true := rfl
    obtain rfl : passed = true := Except.ok.inj (hpassed.symm.trans htrue)
    obtain ⟨found, hfound, hdepth⟩ := himplies rfl
    obtain rfl : items = found :=
      Value.list.inj (Operand.value.inj (Except.ok.inj hfound))
    exact ⟨htrue, hdepth 0⟩
  obtain ⟨hnull, _, hfails⟩ := hdecoded [.null]
  obtain ⟨hnumber, hvalue, _⟩ := hdecoded [.scalar (.number 5)]
  obtain ⟨value, hvalue⟩ := hvalue.mpr (by decide)
  exact ⟨generated, index, value, hgenerated, hindex,
    List.forall_mem_cons.mpr ⟨hnull, List.forall_mem_singleton.mpr hnumber⟩,
    hfails ⟨.null, List.mem_cons_self, rfl⟩, hvalue⟩

end SchemaWire
