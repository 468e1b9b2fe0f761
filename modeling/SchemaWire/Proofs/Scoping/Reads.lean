import SchemaWire.Proofs.Route.PathValue
import SchemaWire.Proofs.Scoping.Wrapper

/-!
The variables that route wrappers read. Apart from the global `JSON` a wrapper reads its parameters
and the constants of its own body where they are in scope, and it reads the body that it sends
exactly once, whether that travels as JSON or in the query string.
-/
namespace SchemaWire

open TypeScript (Expr Mention Stmt TemplatePart)

namespace TypeScript

/-- The variable that is read where a name is mentioned, with the local names in scope. -/
def Mention.read? : Mention → Option (String × List String)
  | .value name locals => some (name, locals)
  | _ => none

/-- The variables that are read in mentions. -/
def reads (mentions : List Mention) : List (String × List String) :=
  mentions.filterMap Mention.read?

@[simp]
theorem reads_append (mentions others : List Mention) :
    reads (mentions ++ others) = reads mentions ++ reads others :=
  List.filterMap_append

theorem reads_nil : reads [] = [] := rfl

theorem reads_value (name : String) (locals : List String) (rest : List Mention) :
    reads (.value name locals :: rest) = (name, locals) :: reads rest := rfl

theorem reads_callee (name : String) (locals : List String) (rest : List Mention) :
    reads (.callee name locals :: rest) = reads rest := rfl

@[simp]
theorem reads_bindings (locals names : List String) : reads (bindings locals names) = [] := by
  induction names generalizing locals with
  | nil => rfl
  | cons name rest ih => exact ih (name :: locals)

@[simp]
theorem reads_ty (ty : Ty) : reads ty.mentions = [] := by
  refine List.filterMap_eq_nil_iff.mpr fun mention hmention => ?_
  obtain ⟨word, _, rfl⟩ := mem_mentions_ty.mp hmention
  rfl

theorem reads_subset {mentions others : List Mention} (h : mentions ⊆ others) :
    reads mentions ⊆ reads others := by
  intro read hread
  obtain ⟨mention, hmention, heq⟩ := List.mem_filterMap.mp hread
  exact List.mem_filterMap.mpr ⟨mention, h hmention, heq⟩

end TypeScript

namespace RouteDef

variable {index : TypeIndex} {route : RouteDef} {matchInfo : Option ObjectType}

/-- All variables that are read are in scope or the global `JSON`, and the body is read a number of
times. -/
structure ReadsBody (times : Nat) (found : List (String × List String)) : Prop where
  inScope : ∀ read ∈ found, read.1 ∈ read.2 ∨ read.1 = "JSON"
  count : (found.map Prod.fst).count "body" = times

namespace ReadsBody

variable {times more : Nat} {found others : List (String × List String)}

theorem append (h : ReadsBody times found) (hothers : ReadsBody more others) :
    ReadsBody (times + more) (found ++ others) := by
  refine ⟨List.forall_mem_append.mpr ⟨h.inScope, hothers.inScope⟩, ?_⟩
  rw [List.map_append, List.count_append, h.count, hothers.count]

/-- Other variables in scope do not count. -/
theorem zero (h : ∀ read ∈ found, read.1 ∈ read.2 ∧ read.1 ≠ "body") : ReadsBody 0 found := by
  refine ⟨fun read hread => Or.inl (h read hread).1, List.count_eq_zero.mpr fun hmem => ?_⟩
  obtain ⟨read, hread, hname⟩ := List.mem_map.mp hmem
  exact (h read hread).2 hname

end ReadsBody

/-- The parameters in the URL read the match info only. -/
theorem reads_pathParts {segments : List PathSegment} {parts : List TemplatePart}
    (h : route.pathParts index matchInfo segments = .ok parts) (locals : List String) :
    ∀ read ∈ TypeScript.reads (Expr.partMentions locals parts),
      matchInfo.isSome = true ∧ read = ("matchInfo", locals) := by
  induction segments generalizing parts with
  | nil =>
      cases h
      exact nofun
  | cons segment rest ih =>
      cases segment with
      | text value =>
          obtain ⟨others, hothers, rfl⟩ := pathParts_text_eq_ok_iff.mp h
          rw [Expr.partMentions]
          exact ih hothers
      | param name =>
          obtain ⟨wire, hwire, others, hothers, rfl⟩ := pathParts_param_eq_ok_iff.mp h
          obtain ⟨object, hobject, _⟩ := paramValue_eq_ok_iff.mp hwire
          intro read hread
          have hcases : read ∈ TypeScript.reads (wire.mentions locals) ∨
              read ∈ TypeScript.reads (Expr.partMentions locals others) := by
            simpa [encodedParam, callNamed, TypeScript.reads_nil, TypeScript.reads_callee]
              using hread
          rcases hcases with hin | hin
          · refine ⟨Option.isSome_of_mem hobject, ?_⟩
            simpa [TypeScript.reads_nil, TypeScript.reads_value] using
              TypeScript.reads_subset (mentions_paramValue hwire locals) hin
          · exact ih hothers read hin

theorem reads_urlOf (parts : List TemplatePart) (locals : List String) :
    TypeScript.reads ((urlOf parts).mentions locals) ⊆
      TypeScript.reads (Expr.partMentions locals parts) := by
  unfold urlOf
  split
  · exact List.nil_subset _
  · exact List.Subset.refl _

/-- A function reads variables in its body only. -/
theorem reads_function (function : TypeScript.Function) :
    TypeScript.reads function.mentions = TypeScript.reads
      (Stmt.mentionsAll (TypeScript.withParams [] function.params) function.body) := by
  have htypes (tys : List TypeScript.Ty) :
      TypeScript.reads (tys.flatMap TypeScript.Ty.mentions) = [] := by
    induction tys with
    | nil => rfl
    | cons ty rest ih => simp [ih]
  have hparams (params : List TypeScript.Param) : TypeScript.reads
      (params.flatMap fun param => param.ty.toList.flatMap TypeScript.Ty.mentions) = [] := by
    induction params with
    | nil => rfl
    | cons param rest ih => simp [ih, htypes]
  simp [TypeScript.Function.mentions, TypeScript.paramMentions, hparams, htypes]

theorem reads_wireBody (object : ObjectType) (locals : List String) :
    TypeScript.reads ((wireBody object).mentions locals) = [("body", locals)] := by
  simp [wireBody, callNamed, TypeScript.reads_nil, TypeScript.reads_value, TypeScript.reads_callee]

/-- The options are passed on, and hold the body if the method allows one. -/
theorem reads_requestOptions (body : Option ObjectType) (locals : List String) :
    TypeScript.reads ((route.requestOptions body).mentions locals) =
      ("options", locals) :: if body.isSome && route.method.allowsBody then
        [("options", locals), ("JSON", locals), ("body", locals)] else [] := by
  cases body with
  | none => simp [requestOptions, TypeScript.reads_nil, TypeScript.reads_value]
  | some object =>
      cases hallows : route.method.allowsBody <;>
        simp [requestOptions, hallows, methodCall, reads_wireBody, TypeScript.reads_nil,
          TypeScript.reads_value]

/-- Once the request is done, only the response is read. -/
theorem reads_request (url options : Expr) (response : Option ObjectType) (locals : List String) :
    TypeScript.reads (Stmt.mentionsAll locals [
        .const "res" none (.await (callNamed "fetch" [url, options])), throwUnlessOk,
        returnOf response]) =
      TypeScript.reads (url.mentions locals) ++ TypeScript.reads (options.mentions locals) ++
        List.replicate (4 + response.toList.length) ("res", "res" :: locals) := by
  cases response <;>
    simp [throwUnlessOk, returnOf, callNamed, methodCall, Stmt.declaredNames, List.replicate,
      TypeScript.reads_value, TypeScript.reads_callee]

variable {body response : Option ObjectType} {locals : List String}

theorem readsBody_urlOf {segments : List PathSegment} {parts : List TemplatePart}
    (h : route.pathParts index matchInfo segments = .ok parts)
    (hlocals : HasParameters matchInfo body locals) (extra : List TemplatePart)
    (hextra : ∀ read ∈ TypeScript.reads (Expr.partMentions locals extra),
      read.1 ∈ read.2 ∧ read.1 ≠ "body") :
    ReadsBody 0 (TypeScript.reads ((urlOf (parts ++ extra)).mentions locals)) := by
  refine .zero fun read hread => ?_
  have hin := reads_urlOf _ _ hread
  rw [Expr.partMentions_append, TypeScript.reads_append, List.mem_append] at hin
  rcases hin with hpath | hmore
  · obtain ⟨hsome, rfl⟩ := reads_pathParts h locals read hpath
    obtain ⟨object, hobject⟩ := Option.isSome_iff_exists.mp hsome
    exact ⟨hlocals.matchInfo_mem hobject, by simp⟩
  · exact hextra read hmore

theorem readsBody_requestOptions (route : RouteDef)
    (hlocals : HasParameters matchInfo body locals) :
    ReadsBody (if body.isSome && route.method.allowsBody then 1 else 0)
      (TypeScript.reads ((route.requestOptions body).mentions locals)) := by
  rw [reads_requestOptions]
  cases hsends : body.isSome && route.method.allowsBody with
  | false => exact .zero (by simp [hlocals.options_mem])
  | true =>
      obtain ⟨object, hobject⟩ := Option.isSome_iff_exists.mp (Bool.and_eq_true_iff.mp hsends).1
      exact ⟨by simp [hlocals.options_mem, hlocals.body_mem hobject], by simp⟩

theorem readsBody_request (route : RouteDef) (response : Option ObjectType) {url : Expr}
    (hurl : ReadsBody 0 (TypeScript.reads (url.mentions locals)))
    (hlocals : HasParameters matchInfo body locals) :
    ReadsBody (if body.isSome && route.method.allowsBody then 1 else 0)
      (TypeScript.reads (Stmt.mentionsAll locals [
        .const "res" none (.await (callNamed "fetch" [url, route.requestOptions body])),
        throwUnlessOk, returnOf response])) := by
  have hoptions := readsBody_requestOptions route hlocals
  have hresponse : ReadsBody 0
      (List.replicate (4 + response.toList.length) ("res", "res" :: locals)) := by
    refine .zero fun read hread => ?_
    obtain ⟨_, rfl⟩ := List.mem_replicate.mp hread
    exact ⟨List.mem_cons_self, by simp⟩
  rw [reads_request]
  simpa using (hurl.append hoptions).append hresponse

/-- A wrapper reads its parameters and constants only, and the body once if there is one. -/
theorem readsBody_wrapperOf {segments : List PathSegment} {parts : List TemplatePart}
    (h : route.pathParts index matchInfo segments = .ok parts) :
    ReadsBody body.toList.length
      (TypeScript.reads (route.wrapperOf matchInfo body response parts).mentions) := by
  have hlocals := @HasParameters.parameterNames matchInfo body
  rw [reads_function, TypeScript.withParams, names_wrapperOf, List.append_nil]
  generalize (parameterNames matchInfo body).reverse = locals at hlocals
  rw [wrapperOf]
  fun_cases queryOf route body with
  | case1 object hallows =>
      have hurl := readsBody_urlOf h hlocals [] (by simp [Expr.partMentions, TypeScript.reads_nil])
      have hrequest := readsBody_request route response hurl hlocals
      simpa [hallows] using hrequest
  | case2 object hallows =>
      -- the rest of the wrapper is in the scope of the query string
      have hinside : HasParameters matchInfo (some object) ("query" :: locals) :=
        hlocals.cons (by decide)
      have hrequest := readsBody_request route response (readsBody_urlOf h hinside
        [.text "?", .hole (.ident "query")]
        (by simp [TypeScript.reads_nil, TypeScript.reads_value])) hinside
      have hquery : ReadsBody 1 [("body", locals)] := ⟨by simp [hlocals.body_mem rfl], rfl⟩
      have hconst : TypeScript.reads (Stmt.mentions locals (.const "query" none
          (callNamed HelperName.encodeQuery [wireBody object]))) = [("body", locals)] := by
        simp [callNamed, reads_wireBody, TypeScript.reads_callee]
      rw [if_neg (by simp [hallows])] at hrequest
      rw [List.singleton_append, Stmt.mentionsAll, TypeScript.reads_append,
        TypeScript.reads_append, hconst, TypeScript.reads_bindings, List.append_nil]
      exact hquery.append hrequest
  | case3 =>
      have hurl := readsBody_urlOf h hlocals [] (by simp [Expr.partMentions, TypeScript.reads_nil])
      have hrequest := readsBody_request route response hurl hlocals
      simpa using hrequest

end RouteDef

end SchemaWire
