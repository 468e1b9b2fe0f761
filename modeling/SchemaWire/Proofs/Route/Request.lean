import SchemaWire.Proofs.Index.Registration
import SchemaWire.Proofs.Scoping.Reads

/-!
Requests of wrappers. A wrapper prepares at most one constant, sends one request and returns its
result. The URL is told by the text it stands for, piece by piece: the characters of its static
parts and the values of its holes. The main statement says for which routes there is a wrapper, and
what it sends and returns.
-/
namespace SchemaWire

open TypeScript (Expr ObjectEntry TemplatePart)

namespace TypeScript

/-- A piece of a text: a character, or the value of an expression. -/
inductive TextPiece where
  | char (c : Char)
  | hole (value : Expr)
deriving Repr

def TemplatePart.pieces : TemplatePart → List TextPiece
  | .text value => value.toList.map .char
  | .hole value => [.hole value]

/-- The pieces of the text that an expression stands for, in order. -/
def Expr.pieces : Expr → List TextPiece
  | .literal (.string text) => text.toList.map .char
  | .template parts => parts.flatMap TemplatePart.pieces
  | other => [.hole other]

/-- The value of a property of an object literal, unless a later entry can replace it. -/
def property? (key : String) (entries : List ObjectEntry) : Option Expr :=
  let sets : ObjectEntry → Bool
    | .property name _ => name = key
    | .spread _ => true
  match entries.reverse.find? sets with
  | some (.property _ value) => some value
  | _ => none

/-- A request with what is done before and after it: the constants that are prepared, the URL, the
options, and what is returned. -/
structure Exchange where
  prepared : List (String × Expr)
  url : Expr
  options : List ObjectEntry
  result : Option Expr

/-- The function makes the exchange. A failed request makes it throw. -/
def Function.Makes (function : Function) (exchange : Exchange) : Prop :=
  ∃ condition error, function.body =
    (exchange.prepared.map fun constant => .const constant.1 none constant.2) ++ [
      .const "res" none (.await (.call (.ident "fetch") [exchange.url, .object exchange.options])),
      .cond condition [.throw error],
      .ret exchange.result]

end TypeScript

open TypeScript (TextPiece)

/-- The pieces of a URL that come from a path template: static text as it is, and each parameter
encoded after the conversion of the match-info field of its name. The conversion reads the match
info and binds nothing. -/
inductive TypeIndex.PathPieces (index : TypeIndex) (matchInfo : Option ObjectType) :
    List PathSegment → List TextPiece → Prop where
  | nil : PathPieces index matchInfo [] []
  | text (value : String) {rest : List PathSegment} {pieces : List TextPiece}
      (h : PathPieces index matchInfo rest pieces) :
      PathPieces index matchInfo (.text value :: rest) (value.toList.map .char ++ pieces)
  | param {object : ObjectType} {name : String} {field : ObjectField} {wire : Expr}
      {rest : List PathSegment} {pieces : List TextPiece} (hobject : object ∈ matchInfo)
      (hfield : object.FirstNamed name field)
      (hwire : index.convertOrKeep .toWire field.descriptor
        (.member (.ident "matchInfo") name) 1 = .ok wire)
      (hmentions : ∀ locals, wire.mentions locals ⊆ [.value "matchInfo" locals])
      (h : PathPieces index matchInfo rest pieces) :
      PathPieces index matchInfo (.param name :: rest) (.hole
        (.call (.ident "encodeURIComponent") [.call (.ident "String") [wire]]) :: pieces)

namespace RouteDef

variable {index : TypeIndex} {route : RouteDef} {matchInfo : Option ObjectType}

theorem pathPieces_of_pathParts {segments : List PathSegment} {parts : List TemplatePart}
    (h : route.pathParts index matchInfo segments = .ok parts) :
    index.PathPieces matchInfo segments (parts.flatMap TemplatePart.pieces) := by
  induction segments generalizing parts with
  | nil =>
      cases h
      exact .nil
  | cons segment rest ih =>
      cases segment with
      | text value =>
          obtain ⟨others, hothers, rfl⟩ := pathParts_text_eq_ok_iff.mp h
          exact .text value (ih hothers)
      | param name =>
          obtain ⟨wire, hwire, others, hothers, rfl⟩ := pathParts_param_eq_ok_iff.mp h
          obtain ⟨object, hobject, field, hfield, _, hconverted⟩ := paramValue_eq_ok_iff.mp hwire
          exact .param hobject hfield hconverted (mentions_paramValue hwire) (ih hothers)

theorem toList_joinWith_of_staticTexts? {parts : List TemplatePart} {texts : List String}
    (h : staticTexts? parts = some texts) :
    (TypeScript.joinWith "" texts).toList.map TextPiece.char =
      parts.flatMap TemplatePart.pieces := by
  induction parts generalizing texts with
  | nil =>
      cases h
      rfl
  | cons part rest ih =>
      cases part with
      | hole value => cases h
      | text value =>
          obtain ⟨others, hothers, rfl⟩ := Option.map_eq_some_iff.mp h
          rw [List.flatMap_cons, ← ih hothers]
          cases others <;> simp [TypeScript.joinWith, TemplatePart.pieces]

/-- The URL stands for the text of its parts, in whichever form it is written. -/
theorem pieces_urlOf (parts : List TemplatePart) :
    (urlOf parts).pieces = parts.flatMap TemplatePart.pieces := by
  unfold urlOf
  split
  · rename_i texts htexts
    exact toList_joinWith_of_staticTexts? htexts
  · rfl

end RouteDef

/-! The exchange of a wrapper. -/

def WireFunction.callOn (function : WireFunction) (arg : Expr) : Expr :=
  .call (.ident function.declared.name) [arg]

/-- The route can be called: its name is an identifier, its models are declared, and for every
parameter of its path the match info has a field, the first of this name, that holds a scalar. -/
structure RouteDef.IsCallable (route : RouteDef) (index : TypeIndex) : Prop where
  name : TypeScript.isIdentifier route.name = true
  models : ∀ path ∈ route.models, path ∈ index.paths
  params : ∃ segments, PathSegment.parse route.path = .ok segments ∧
    ∀ name, .param name ∈ segments → ∃ path ∈ route.matchInfo, ∃ object,
      index.object? path = some object ∧ ∃ field, object.FirstNamed name field ∧
        field.descriptor.strip.IsScalar

/-- The exchange sends what the route matches and sends, and returns what it returns. -/
structure TypeScript.Exchange.Serves (exchange : TypeScript.Exchange) (index : TypeIndex)
    (route : RouteDef) (segments : List PathSegment) : Prop where
  url : ∃ pieces, index.PathPieces (route.matchInfo.bind index.object?) segments pieces ∧
    exchange.url.pieces =
      pieces ++ if route.sendsQuery then [.char '?', .hole (.ident "query")] else []
  method : TypeScript.property? "method" exchange.options =
    some (.literal (.string route.method.name))
  sent : ∀ path ∈ route.body, ∃ function, index.toWire? path = some function ∧
    if route.method.allowsBody then
      exchange.prepared = [] ∧ TypeScript.property? "body" exchange.options =
        some (.call (.member (.ident "JSON") "stringify") [function.callOn (.ident "body")])
    else
      exchange.prepared =
          [("query", .call (.ident HelperName.encodeQuery) [function.callOn (.ident "body")])] ∧
        TypeScript.property? "body" exchange.options = none
  unsent : route.body = none →
    exchange.prepared = [] ∧ TypeScript.property? "body" exchange.options = none
  returned : ∀ path ∈ route.response, ∃ function, index.fromWire? path = some function ∧
    exchange.result =
      some (function.callOn (.await (.call (.member (.ident "res") "json") [])))
  unreturned : route.response = none → exchange.result = none

theorem TypeIndex.isSome_object?_iff {index : TypeIndex} {path : ModelPath} :
    (index.object? path).isSome = true ↔ path ∈ index.paths :=
  Option.isSome_iff_exists.trans exists_object_iff

namespace RouteDef

variable {index : TypeIndex} {route : RouteDef}

/-- The routes that have a wrapper. -/
theorem exists_wrapper_iff :
    (∃ function, route.wrapper index = .ok function) ↔ route.IsCallable index := by
  constructor
  · rintro ⟨function, h⟩
    obtain ⟨hname, _, _, _, segments, parts, hmatchInfo, hbody, hresponse, hsegments, hparts, _⟩ :=
      wrapper_eq_ok_iff.mp h
    obtain ⟨hmatched, rfl⟩ := object?_eq_ok_iff.mp hmatchInfo
    have hmodels : ∀ path ∈ route.models, (index.object? path).isSome = true :=
      List.forall_mem_append.mpr ⟨List.forall_mem_append.mpr
        ⟨hmatched, (object?_eq_ok_iff.mp hbody).1⟩, (object?_eq_ok_iff.mp hresponse).1⟩
    refine ⟨hname, fun path hpath => TypeIndex.isSome_object?_iff.mp (hmodels path hpath), segments,
      hsegments, fun name hparam => ?_⟩
    obtain ⟨object, hobject, field, hfield, hscalar⟩ :=
      exists_pathParts_iff.mp ⟨parts, hparts⟩ name hparam
    obtain ⟨path, hpath, hdeclared⟩ := Option.bind_eq_some_iff.mp hobject
    exact ⟨path, hpath, object, hdeclared, field, hfield, Descriptor.isPathScalar_iff.mp hscalar⟩
  · rintro ⟨hname, hmodels, segments, hsegments, hparams⟩
    have hdeclared : ∀ path ∈ route.models, (index.object? path).isSome = true :=
      fun path hpath => TypeIndex.isSome_object?_iff.mpr (hmodels path hpath)
    obtain ⟨hsent, hresponse⟩ := List.forall_mem_append.mp hdeclared
    obtain ⟨hmatchInfo, hbody⟩ := List.forall_mem_append.mp hsent
    have hparts : ∃ parts,
        route.pathParts index (route.matchInfo.bind index.object?) segments = .ok parts := by
      refine exists_pathParts_iff.mpr fun name hparam => ?_
      obtain ⟨path, hpath, object, hobject, field, hfield, hscalar⟩ := hparams name hparam
      exact ⟨object, Option.bind_eq_some_iff.mpr ⟨path, hpath, hobject⟩, field, hfield,
        Descriptor.isPathScalar_iff.mpr hscalar⟩
    obtain ⟨parts, hparts⟩ := hparts
    exact ⟨_, wrapper_eq_ok_iff.mpr ⟨hname, _, _, _, segments, parts,
      object?_eq_ok_iff.mpr ⟨hmatchInfo, rfl⟩, object?_eq_ok_iff.mpr ⟨hbody, rfl⟩,
      object?_eq_ok_iff.mpr ⟨hresponse, rfl⟩, hsegments, hparts, rfl⟩⟩

/-- The exchange that a wrapper makes. -/
def exchangeOf (route : RouteDef) (body response : Option ObjectType) (parts : List TemplatePart) :
    TypeScript.Exchange where
  prepared :=
    match body with
    | some object =>
        if route.method.allowsBody then []
        else [("query", callNamed HelperName.encodeQuery [wireBody object])]
    | none => []
  url := urlOf (parts ++ (route.queryOf body).2)
  options :=
    match route.requestOptions body with
    | .object entries => entries
    | _ => []
  result := response.map fun object =>
    callNamed (Direction.fromWire.functionName object.name)
      [.await (methodCall (.ident "res") "json" [])]

theorem makes_wrapperOf (matchInfo body response : Option ObjectType) (parts : List TemplatePart) :
    (route.wrapperOf matchInfo body response parts).Makes
      (route.exchangeOf body response parts) := by
  obtain ⟨condition, error, hguard⟩ : ∃ condition error,
      throwUnlessOk = .cond condition [.throw error] := ⟨_, _, rfl⟩
  have hresult : returnOf response = .ret (route.exchangeOf body response parts).result := by
    cases response <;> rfl
  refine ⟨condition, error, ?_⟩
  rw [← hguard, ← hresult]
  cases body with
  | none => rfl
  | some object =>
      cases hallows : route.method.allowsBody <;>
        simp [wrapperOf, exchangeOf, queryOf, requestOptions, hallows, callNamed]

/-- The call of the conversion function of a declared model. -/
theorem exists_callOn (hindex : index.Consistent) {path : ModelPath} {object : ObjectType}
    (hobject : index.object? path = some object) (dir : Direction) :
    ∃ function, index.function? dir path = some function ∧
      ∀ arg, callNamed (dir.functionName object.name) [arg] = function.callOn arg := by
  have hmem : path ∈ index.paths := TypeIndex.exists_object_iff.mp ⟨object, hobject⟩
  obtain ⟨function, hfunction, hbuilt⟩ := hindex.exists_function hmem dir
  obtain ⟨declared, entries, hdeclared, hconverts⟩ := TypeIndex.wireFunction_ok hbuilt
  obtain rfl : object = declared := Option.some.inj (hobject.symm.trans hdeclared)
  exact ⟨function, hfunction, fun arg => by rw [WireFunction.callOn, hconverts.name_eq, callNamed]⟩

/-- The query string comes last in the URL. -/
theorem pieces_queryOf (route : RouteDef) (body : Option ObjectType) :
    (route.queryOf body).2.flatMap TemplatePart.pieces =
      if body.isSome && !route.method.allowsBody then [.char '?', .hole (.ident "query")]
      else [] := by
  fun_cases queryOf route body <;> simp_all [TemplatePart.pieces]

theorem serves_exchangeOf (hindex : index.Consistent) {matchInfo body response : Option ObjectType}
    {segments : List PathSegment} {parts : List TemplatePart}
    (hmatchInfo : object? index route.matchInfo = .ok matchInfo)
    (hbody : object? index route.body = .ok body)
    (hresponse : object? index route.response = .ok response)
    (hparts : route.pathParts index matchInfo segments = .ok parts) :
    (route.exchangeOf body response parts).Serves index route segments := by
  obtain ⟨_, rfl⟩ := object?_eq_ok_iff.mp hmatchInfo
  have hurl : (route.exchangeOf body response parts).url =
      urlOf (parts ++ (route.queryOf body).2) := rfl
  refine ⟨⟨_, pathPieces_of_pathParts hparts, ?_⟩, ?_, ?_, ?_, ?_, ?_⟩
  · rw [hurl, pieces_urlOf, List.flatMap_append, pieces_queryOf, isSome_object? hbody, sendsQuery]
  · cases body with
    | none => rfl
    | some object =>
        cases hallows : route.method.allowsBody <;>
          simp [exchangeOf, requestOptions, hallows, TypeScript.property?]
  · intro path hpath
    rw [Option.mem_def.mp hpath] at hbody
    obtain ⟨object, hobject, rfl⟩ := exists_declared hbody
    obtain ⟨function, hfunction, hcall⟩ := exists_callOn hindex hobject .toWire
    have hwire : wireBody object = function.callOn (.ident "body") := hcall (.ident "body")
    refine ⟨function, hfunction, ?_⟩
    cases hallows : route.method.allowsBody <;>
      simp [exchangeOf, requestOptions, hallows, TypeScript.property?, hwire, callNamed, methodCall]
  · intro hnone
    rw [hnone] at hbody
    cases hbody
    exact ⟨rfl, rfl⟩
  · intro path hpath
    rw [Option.mem_def.mp hpath] at hresponse
    obtain ⟨object, hobject, rfl⟩ := exists_declared hresponse
    obtain ⟨function, hfunction, hcall⟩ := exists_callOn hindex hobject .fromWire
    exact ⟨function, hfunction, congrArg some (hcall _)⟩
  · intro hnone
    rw [hnone] at hresponse
    cases hresponse
    rfl

/-- The parameters of a path that can be called are names of fields of the matched model. -/
theorem IsCallable.mem_fields {graph : ModelGraph} {roots : List ModelPath}
    (h : route.IsCallable index) (hcovers : TypeIndex.Covers graph roots index)
    {segments : List PathSegment} (hsegments : PathSegment.parse route.path = .ok segments)
    {name : String} (hname : .param name ∈ segments) :
    ∃ path ∈ route.matchInfo, ∃ model, graph.get? path = some model ∧
      name ∈ model.fields.map FieldDef.name := by
  obtain ⟨_, hparsed, hparams⟩ := h.params
  cases hsegments.symm.trans hparsed
  obtain ⟨path, hpath, object, hobject, field, hfield, _⟩ := hparams name hname
  obtain ⟨model, hmodel, hdeclares⟩ := (hcovers.object_declares hobject).model
  refine ⟨path, hpath, model, hmodel, ?_⟩
  rw [← hdeclares.names_eq]
  exact List.mem_map.mpr ⟨field, hfield.mem⟩

/-- A key with an optional date, and a note. -/
def stampGraph : ModelGraph :=
  .ofList [
    (⟨"app.Key"⟩, ⟨[⟨"id", .primitive .int, none⟩,
      ⟨"since", .union [.primitive .datetime, .absence], none⟩]⟩),
    (⟨"app.Note"⟩, ⟨[⟨"text", .primitive .str, none⟩]⟩)]

/-- A route that matches the key, and sends and returns the note. -/
def stampRoute : RouteDef :=
  ⟨"stamp_note", none, .put, "/notes/\x7bid\x7d/\x7bsince\x7d", some ⟨"app.Key"⟩,
    some ⟨"app.Note"⟩, some ⟨"app.Note"⟩⟩

/-- A route whose path asks for a field that the key does not have. -/
def authorRoute : RouteDef :=
  ⟨"author", none, .get, "/notes/\x7bauthor\x7d", some ⟨"app.Key"⟩, none, none⟩

/-- The text of the URL of the route, in which the date is converted as an optional date is. -/
def stampUrl : String :=
  "`/notes/$\x7bencodeURIComponent(String(matchInfo.id))\x7d/$\x7bencodeURIComponent(String(" ++
    "matchInfo.since === null ? null : matchInfo.since.getTime() / 1000))\x7d`"

/-- The text of the URL of a request that comes first in a body. -/
def requestUrl? : List TypeScript.Stmt → Option String
  | .const "res" none (.await (.call _ (url :: _))) :: _ => some url.print
  | _ => none

end RouteDef

end SchemaWire
