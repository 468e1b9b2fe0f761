import SchemaWire.Proofs.Route.Parts
import SchemaWire.Proofs.Scoping.Conversion

/-!
The names that route wrappers mention. A wrapper reads its parameters and the constants of its own
body, and refers outside to globals, to the helpers that all wrappers share, to conversion functions
and, exactly if its body travels in the query string, to the encoder of query strings.
-/
namespace SchemaWire.RouteDef

open TypeScript (AllResolve Expr Mention Stmt Ty TemplatePart)

/-- What the wrapper of a route relies on, besides what conversions do. -/
structure Provides (route : RouteDef) (index : TypeIndex) (values types : List String) : Prop
    extends index.Provides values types where
  apiError : HelperName.apiError ∈ values
  readErrorBody : HelperName.readErrorBody ∈ values
  encodeQuery : route.sendsQuery = true → HelperName.encodeQuery ∈ values
  void : "void" ∈ types

def parameterNames (matchInfo body : Option ObjectType) : List String :=
  (arguments matchInfo body).map Prod.fst ++ ["options"]

theorem nodup_parameterNames (matchInfo body : Option ObjectType) :
    (parameterNames matchInfo body).Nodup := by
  cases matchInfo <;> cases body <;> simp [parameterNames, arguments]

theorem mem_parameterNames {matchInfo body : Option ObjectType} {name : String} :
    name ∈ parameterNames matchInfo body ↔ (matchInfo.isSome = true ∧ name = "matchInfo") ∨
      (body.isSome = true ∧ name = "body") ∨ name = "options" := by
  cases matchInfo <;> cases body <;> simp [parameterNames, arguments]

/-- Local names among which are the parameters of a wrapper. -/
structure HasParameters (matchInfo body : Option ObjectType) (locals : List String) : Prop where
  isLocal : ∀ name ∈ locals, IsLocal 1 name
  params : ∀ name ∈ parameterNames matchInfo body, name ∈ locals

namespace HasParameters

variable {matchInfo body : Option ObjectType} {locals : List String}

theorem parameterNames : HasParameters matchInfo body (parameterNames matchInfo body).reverse := by
  refine ⟨fun name hname => ?_, fun name hname => List.mem_reverse.mpr hname⟩
  have hcases := mem_parameterNames.mp (List.mem_reverse.mp hname)
  rcases hcases with ⟨_, rfl⟩ | ⟨_, rfl⟩ | rfl <;> exact Or.inl (by decide)

/-- A constant of a wrapper leaves its parameters in scope. -/
theorem cons (h : HasParameters matchInfo body locals) {name : String}
    (hfixed : name ∈ fixedLocals) :
    HasParameters matchInfo body (name :: locals) :=
  ⟨List.forall_mem_cons.mpr ⟨Or.inl hfixed, h.isLocal⟩,
    fun other hother => List.mem_cons_of_mem _ (h.params other hother)⟩

theorem options_mem (h : HasParameters matchInfo body locals) : "options" ∈ locals :=
  h.params _ (mem_parameterNames.mpr (Or.inr (Or.inr rfl)))

theorem matchInfo_mem (h : HasParameters matchInfo body locals) {object : ObjectType}
    (hmem : object ∈ matchInfo) : "matchInfo" ∈ locals :=
  h.params _ (mem_parameterNames.mpr (Or.inl ⟨Option.isSome_of_mem hmem, rfl⟩))

theorem body_mem (h : HasParameters matchInfo body locals) {object : ObjectType}
    (hmem : object ∈ body) : "body" ∈ locals :=
  h.params _ (mem_parameterNames.mpr (Or.inr (Or.inl ⟨Option.isSome_of_mem hmem, rfl⟩)))

end HasParameters

variable {index : TypeIndex} {route : RouteDef} {values types locals : List String}

theorem names_wrapperOf (route : RouteDef) (matchInfo body response : Option ObjectType)
    (parts : List TemplatePart) :
    (route.wrapperOf matchInfo body response parts).params.flatMap TypeScript.Param.names =
      parameterNames matchInfo body := by
  cases matchInfo <;> cases body <;> rfl

/-- The body travels in the query string, or there is nothing to prepare. -/
theorem queryOf_cases (route : RouteDef) (body : Option ObjectType) :
    route.queryOf body = ([], []) ∨ ∃ object ∈ body,
      route.queryOf body = ([.const "query" none (callNamed HelperName.encodeQuery
        [wireBody object])], [.text "?", .hole (.ident "query")]) ∧
      route.method.allowsBody = false := by
  fun_cases queryOf route body with
  | case1 object => exact Or.inl rfl
  | case2 object hallows => exact Or.inr ⟨object, rfl, rfl, Bool.eq_false_iff.mpr hallows⟩
  | case3 => exact Or.inl rfl

namespace Provides

theorem resolves_fixed (h : route.Provides index values types) {name : String}
    (hfixed : name ∈ fixedLocals) (hmem : name ∈ locals) :
    (Mention.value name locals).Resolves values types :=
  TypeScript.resolves_local hmem (h.fresh 0 name (Or.inl hfixed))

theorem resolves_encodedParam (h : route.Provides index values types) {wire : Expr}
    (hlocals : ∀ name ∈ locals, IsLocal 1 name)
    (hwire : AllResolve values types (wire.mentions locals)) :
    AllResolve values types ((encodedParam wire).mentions locals) := by
  have hencode := (h.resolves_global (by decide : "encodeURIComponent" ∈ globalNames) hlocals).2
  have hstring := (h.resolves_global (by decide : "String" ∈ globalNames) hlocals).2
  simp [encodedParam, callNamed, hencode, hstring, hwire]

/-- The value of a path parameter is a converted field of the match info. -/
theorem resolves_paramValue (h : route.Provides index values types) (hindex : index.Consistent)
    {matchInfo body : Option ObjectType}
    (hmatchInfo : object? index route.matchInfo = .ok matchInfo) {name : String} {wire : Expr}
    (hvalue : route.paramValue index matchInfo name = .ok wire)
    (hlocals : HasParameters matchInfo body locals) :
    AllResolve values types (wire.mentions locals) := by
  obtain ⟨object, hmem, field, hfound, _, hconverted⟩ := paramValue_eq_ok_iff.mp hvalue
  obtain ⟨path, _, hobject⟩ := (mem_object?_iff hmatchInfo).mp hmem
  have hread : (Mention.value "matchInfo" locals).Resolves values types :=
    h.resolves_fixed (by decide) (hlocals.matchInfo_mem hmem)
  exact h.resolves_field hindex hobject hfound.mem.1 hconverted hlocals.isLocal
    (by simpa using hread)

theorem resolves_pathParts (h : route.Provides index values types) (hindex : index.Consistent)
    {matchInfo body : Option ObjectType}
    (hmatchInfo : object? index route.matchInfo = .ok matchInfo) {segments : List PathSegment}
    {parts : List TemplatePart} (hparts : route.pathParts index matchInfo segments = .ok parts)
    (hlocals : HasParameters matchInfo body locals) :
    AllResolve values types (Expr.partMentions locals parts) := by
  induction segments generalizing parts with
  | nil =>
      cases hparts
      exact TypeScript.allResolve_nil
  | cons segment rest ih =>
      cases segment with
      | text value =>
          obtain ⟨others, hothers, rfl⟩ := pathParts_text_eq_ok_iff.mp hparts
          simpa using ih hothers
      | param name =>
          obtain ⟨wire, hwire, others, hothers, rfl⟩ := pathParts_param_eq_ok_iff.mp hparts
          have hvalue := h.resolves_paramValue hindex hmatchInfo hwire hlocals
          rw [Expr.partMentions, TypeScript.allResolve_append]
          exact ⟨h.resolves_encodedParam hlocals.isLocal hvalue, ih hothers⟩

theorem resolves_urlOf {parts : List TemplatePart}
    (hparts : AllResolve values types (Expr.partMentions locals parts)) :
    AllResolve values types ((urlOf parts).mentions locals) := by
  unfold urlOf
  split
  · exact TypeScript.allResolve_nil
  · simpa using hparts

/-- The body is sent through the conversion function of its type. -/
theorem resolves_wireBody (h : route.Provides index values types)
    {matchInfo body : Option ObjectType} (hbody : object? index route.body = .ok body)
    (hlocals : HasParameters matchInfo body locals) :
    ∀ object ∈ body, AllResolve values types ((wireBody object).mentions locals) := by
  intro object hmem
  obtain ⟨path, _, hobject⟩ := (mem_object?_iff hbody).mp hmem
  have hfunction : (Mention.callee (Direction.toWire.functionName object.name) locals).Resolves
      values types := h.resolves_function hobject hlocals.isLocal
  have hread : (Mention.value "body" locals).Resolves values types :=
    h.resolves_fixed (by decide) (hlocals.body_mem hmem)
  simp [wireBody, callNamed, hfunction, hread]

theorem resolves_requestOptions (h : route.Provides index values types)
    {matchInfo body : Option ObjectType} (hbody : object? index route.body = .ok body)
    (hlocals : HasParameters matchInfo body locals) :
    AllResolve values types ((route.requestOptions body).mentions locals) := by
  have hoptions : (Mention.value "options" locals).Resolves values types :=
    h.resolves_fixed (by decide) hlocals.options_mem
  have hjson := (h.resolves_global (by decide : "JSON" ∈ globalNames) hlocals.isLocal).1
  unfold requestOptions
  dsimp only
  split
  · rename_i object
    have hwire := h.resolves_wireBody hbody hlocals object rfl
    split
    · simp [methodCall, hoptions, hjson, hwire]
    · simp [hoptions]
  · simp [hoptions]

theorem resolves_throwUnlessOk (h : route.Provides index values types)
    (hlocals : ∀ name ∈ locals, IsLocal 1 name) (hres : "res" ∈ locals) :
    AllResolve values types (throwUnlessOk.mentions locals) := by
  have hread : (Mention.value "res" locals).Resolves values types :=
    h.resolves_fixed (by decide) hres
  have herror : (Mention.callee HelperName.apiError locals).Resolves values types :=
    TypeIndex.resolves_helper (by decide) h.apiError hlocals
  have hreader : (Mention.callee HelperName.readErrorBody locals).Resolves values types :=
    TypeIndex.resolves_helper (by decide) h.readErrorBody hlocals
  simp [throwUnlessOk, callNamed, Stmt.declaredNames, TypeScript.bindings, hread, herror, hreader]

theorem resolves_returnOf (h : route.Provides index values types) {response : Option ObjectType}
    (hresponse : object? index route.response = .ok response)
    (hlocals : ∀ name ∈ locals, IsLocal 1 name) (hres : "res" ∈ locals) :
    AllResolve values types ((returnOf response).mentions locals) := by
  cases response with
  | none => exact TypeScript.allResolve_nil
  | some object =>
      obtain ⟨path, _, hobject⟩ := (mem_object?_iff hresponse).mp (Option.mem_some_self object)
      have hread : (Mention.value "res" locals).Resolves values types :=
        h.resolves_fixed (by decide) hres
      have hfunction : (Mention.callee (Direction.fromWire.functionName object.name)
          locals).Resolves values types := h.resolves_function hobject hlocals
      simp [returnOf, callNamed, methodCall, hfunction, hread]

theorem resolves_resultTy (h : route.Provides index values types) (hindex : index.Consistent)
    {response : Option ObjectType} (hresponse : object? index route.response = .ok response) :
    AllResolve values types (resultTy response).mentions := by
  have hpromise := h.globalType "Promise" (by decide)
  refine TypeScript.resolves_ty.mpr fun word hword => ?_
  cases response with
  | none =>
      have hnames : word = "Promise" ∨ word = "void" := by
        simpa [resultTy, Ty.atoms, Ty.atomsAll] using hword
      rcases hnames with rfl | rfl
      · exact hpromise
      · exact h.void
  | some object =>
      obtain ⟨path, _, hobject⟩ := (mem_object?_iff hresponse).mp (Option.mem_some_self object)
      have hnames : word = "Promise" ∨ word = object.name := by
        simpa [resultTy, Ty.atoms, Ty.atomsAll] using hword
      rcases hnames with rfl | rfl
      · exact hpromise
      · exact h.name_mem hindex hobject

/-- The statements that send the request and return the response. -/
theorem resolves_request (h : route.Provides index values types)
    {matchInfo body response : Option ObjectType} {parts : List TemplatePart}
    (hbody : object? index route.body = .ok body)
    (hresponse : object? index route.response = .ok response)
    (hlocals : HasParameters matchInfo body locals) (hnew : "res" ∉ locals)
    (hparts : AllResolve values types (Expr.partMentions locals parts)) :
    AllResolve values types (Stmt.mentionsAll locals [
      .const "res" none (.await (callNamed "fetch" [urlOf parts, route.requestOptions body])),
      throwUnlessOk, returnOf response]) := by
  have hinside : HasParameters matchInfo body ("res" :: locals) := hlocals.cons (by decide)
  have hfetch := (h.resolves_global (by decide : "fetch" ∈ globalNames) hlocals.isLocal).2
  have hurl : AllResolve values types ((urlOf parts).mentions locals) := resolves_urlOf hparts
  have hoptions := h.resolves_requestOptions hbody hlocals
  have hbinding : (Mention.binding "res" locals).Resolves values types :=
    ⟨hnew, h.fresh _ _ (hinside.isLocal _ List.mem_cons_self)⟩
  have hthrow := h.resolves_throwUnlessOk hinside.isLocal List.mem_cons_self
  have hreturn := h.resolves_returnOf hresponse hinside.isLocal List.mem_cons_self
  have hthrowNames : throwUnlessOk.declaredNames = [] := rfl
  have hreturnNames : (returnOf response).declaredNames = [] := by cases response <;> rfl
  simp only [Stmt.mentionsAll, hthrowNames, hreturnNames]
  simp [callNamed, Stmt.declaredNames, TypeScript.bindings, hfetch, hurl, hoptions, hbinding,
    hthrow, hreturn]

/-- All statements of a wrapper, in the scope of its parameters. -/
theorem resolves_body (h : route.Provides index values types) (hindex : index.Consistent)
    {matchInfo body response : Option ObjectType} {segments : List PathSegment}
    {parts : List TemplatePart} (hmatchInfo : object? index route.matchInfo = .ok matchInfo)
    (hbody : object? index route.body = .ok body)
    (hresponse : object? index route.response = .ok response)
    (hparts : route.pathParts index matchInfo segments = .ok parts) :
    AllResolve values types (Stmt.mentionsAll (parameterNames matchInfo body).reverse
      (route.wrapperOf matchInfo body response parts).body) := by
  have hlocals := @HasParameters.parameterNames matchInfo body
  have hnew : ∀ name ∈ ["query", "res"], name ∉ (parameterNames matchInfo body).reverse := by
    simp [mem_parameterNames]
  generalize (parameterNames matchInfo body).reverse = locals at *
  rw [wrapperOf]
  rcases queryOf_cases route body with hquery | ⟨object, hobject, hquery, hsends⟩ <;> rw [hquery]
  · have hurl := h.resolves_pathParts hindex hmatchInfo hparts hlocals
    rw [List.append_nil, List.nil_append]
    exact h.resolves_request hbody hresponse hlocals (hnew "res" (by decide)) hurl
  · -- the rest of the wrapper is in the scope of the query string
    have hinside : HasParameters matchInfo body ("query" :: locals) := hlocals.cons (by decide)
    have hread : (Mention.value "query" ("query" :: locals)).Resolves values types :=
      h.resolves_fixed (by decide) List.mem_cons_self
    have hurl : AllResolve values types (Expr.partMentions ("query" :: locals)
        (parts ++ [.text "?", .hole (.ident "query")])) := by
      rw [Expr.partMentions_append, TypeScript.allResolve_append]
      exact ⟨h.resolves_pathParts hindex hmatchInfo hparts hinside, by simpa using hread⟩
    have hsendsQuery : route.sendsQuery = true := by
      rw [sendsQuery, ← isSome_object? hbody, Option.mem_def.mp hobject, hsends]
      rfl
    have hencode : (Mention.callee HelperName.encodeQuery locals).Resolves values types :=
      TypeIndex.resolves_helper (by decide) (h.encodeQuery hsendsQuery) hlocals.isLocal
    have hwire := h.resolves_wireBody hbody hlocals object hobject
    have hbinding : (Mention.binding "query" locals).Resolves values types :=
      ⟨hnew "query" (by decide), h.fresh _ _ (hinside.isLocal _ List.mem_cons_self)⟩
    have hrest := h.resolves_request hbody hresponse hinside
      (by simpa using hnew "res" (by decide)) hurl
    rw [List.singleton_append, Stmt.mentionsAll, TypeScript.allResolve_append,
      TypeScript.allResolve_append]
    refine ⟨⟨?_, ?_⟩, hrest⟩
    · simp [callNamed, hencode, hwire]
    · simp [Stmt.declaredNames, TypeScript.bindings, hbinding]

/-- The wrapper of a route is closed. -/
theorem resolves_wrapper (h : route.Provides index values types) (hindex : index.Consistent)
    {function : TypeScript.Function} (hwrapper : route.wrapper index = .ok function) :
    AllResolve values types function.mentions := by
  obtain ⟨matchInfo, body, response, segments, parts, hmatchInfo, hbody, hresponse, hparts, rfl⟩ :=
    wrapper_parts hwrapper
  have hnames := names_wrapperOf route matchInfo body response parts
  have hlocals := @HasParameters.parameterNames matchInfo body
  have hscope : TypeScript.withParams [] (route.wrapperOf matchInfo body response parts).params =
      (parameterNames matchInfo body).reverse := by
    rw [TypeScript.withParams, hnames, List.append_nil]
  have hsent : ∀ arg ∈ arguments matchInfo body, arg.2.name ∈ types :=
    (forall_mem_arguments_iff hmatchInfo hbody).mpr fun _ _ object hobject =>
      h.name_mem hindex hobject
  rw [TypeScript.Function.mentions, TypeScript.allResolve_append, TypeScript.allResolve_append,
    hscope]
  refine ⟨⟨TypeScript.resolves_paramMentions ?_ ?_ ?_, ?_⟩, ?_⟩
  · rw [hnames]
    exact nodup_parameterNames matchInfo body
  · rw [hnames]
    exact fun name hname => ⟨List.not_mem_nil,
      h.fresh _ _ (hlocals.isLocal name (List.mem_reverse.mpr hname))⟩
  · have hinit := h.globalType "RequestInit" (by decide)
    intro param hparam ty hty word hword
    rcases List.mem_append.mp hparam with hin | hin
    · obtain ⟨arg, harg, rfl⟩ := List.mem_map.mp hin
      cases hty
      cases List.mem_singleton.mp hword
      exact hsent arg harg
    · cases List.mem_singleton.mp hin
      cases hty
      cases List.mem_singleton.mp hword
      exact hinit
  · simpa [wrapperOf] using h.resolves_resultTy hindex hresponse
  · exact h.resolves_body hindex hmatchInfo hbody hresponse hparts

end Provides

/-- A wrapper whose body travels in the query string calls the encoder. -/
theorem calls_encodeQuery_of_wrapper {function : TypeScript.Function}
    (hwrapper : route.wrapper index = .ok function) (hsends : route.sendsQuery = true) :
    function.Calls HelperName.encodeQuery := by
  obtain ⟨matchInfo, body, response, segments, parts, _, hbody, _, _, rfl⟩ :=
    wrapper_parts hwrapper
  rw [sendsQuery, ← isSome_object? hbody, Bool.and_eq_true] at hsends
  obtain ⟨object, rfl⟩ := Option.isSome_iff_exists.mp hsends.1
  have hquery : route.queryOf (some object) =
      ([.const "query" none (callNamed HelperName.encodeQuery [wireBody object])],
        [.text "?", .hole (.ident "query")]) := by
    rw [queryOf, if_neg (by simpa using hsends.2)]
  refine ⟨TypeScript.withParams []
    (route.wrapperOf matchInfo (some object) response parts).params, List.mem_append_right _ ?_⟩
  simp [wrapperOf, hquery, callNamed]

end SchemaWire.RouteDef
