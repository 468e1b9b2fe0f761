import SchemaWire.Route.Form
import SchemaWire.Route.Path
import SchemaWire.Wire.Convert

/-!
Wrappers of routes: one function per route that sends the request and converts the response. The
path parameters go through the conversion to wire values before they are put into the URL.
-/
namespace SchemaWire

open TypeScript (Expr Stmt Ty TemplatePart)

namespace RouteDef

def callNamed (name : String) (args : List Expr) : Expr :=
  .call (.ident name) args

def encodedParam (wire : Expr) : Expr :=
  callNamed "encodeURIComponent" [callNamed "String" [wire]]

/-- The value of a path parameter: the wire value of the match-info field of its name, which has
to be a scalar. -/
def paramValue (index : TypeIndex) (route : RouteDef) (matchInfo : Option ObjectType)
    (name : String) : Gen Expr := do
  match matchInfo with
  | none => route.invalid (.noMatchInfo name)
  | some object =>
      match object.field? name with
      | none => route.invalid (.noSuchField object.name name)
      | some field =>
          if field.descriptor.isPathScalar then
            (index.convertOrKeep .toWire field.descriptor
              (.member (.ident "matchInfo") name) 1).mapError
                (.located (object.name ++ "." ++ name))
          else
            route.invalid (.notScalar name field.ty.print)

def pathParts (index : TypeIndex) (route : RouteDef) (matchInfo : Option ObjectType) :
    List PathSegment → Gen (List TemplatePart)
  | [] => .ok []
  | .text value :: rest => do
      let others ← pathParts index route matchInfo rest
      return .text value :: others
  | .param name :: rest => do
      let wire ← route.paramValue index matchInfo name
      let others ← pathParts index route matchInfo rest
      return .hole (encodedParam wire) :: others

/-- The texts of the parts, if none of them is a hole. -/
def staticTexts? : List TemplatePart → Option (List String)
  | [] => some []
  | .text value :: rest => (staticTexts? rest).map (value :: ·)
  | .hole _ :: _ => none

/-- The URL: a string where all parts are static, otherwise a template. -/
def urlOf (parts : List TemplatePart) : Expr :=
  match staticTexts? parts with
  | some texts => .literal (.string (TypeScript.joinWith "" texts))
  | none => .template parts

/-- The documentation of an argument: a line for each of its fields. -/
def paramDocs (arg : String) (object : ObjectType) : List String :=
  object.fields.map fun field =>
    "@param \x7b" ++ field.ty.print ++ "\x7d " ++ arg ++ "." ++ field.name

/-- The documentation of the wrapper: the method and the path, then the arguments. -/
def docLines (route : RouteDef) (args : List (String × ObjectType)) : List String :=
  let request := route.method.name ++ " " ++ route.path
  match args.flatMap fun arg => paramDocs arg.1 arg.2 with
  | [] => [request]
  | docs => request :: "" :: docs

def wireBody (body : ObjectType) : Expr :=
  callNamed (Direction.toWire.functionName body.name) [.ident "body"]

/-- The options of the request. A body that the method carries comes with its content type. -/
def requestOptions (route : RouteDef) (body : Option ObjectType) : Expr :=
  let request : List TypeScript.ObjectEntry :=
    [.spread (.ident "options"), .property "method" (.literal (.string route.method.name))]
  match body with
  | some object =>
      if route.method.allowsBody then
        .object (request ++ [
          .property "headers" (.object [
            .property "Content-Type" (.literal (.string "application/json")),
            .spread (.optionalMember (.ident "options") "headers")]),
          .property "body" (methodCall (.ident "JSON") "stringify" [wireBody object])])
      else
        .object request
  | none => .object request

/-- The statement that prepares the query string, and the parts it adds to the URL, where the
body travels there. -/
def queryOf (route : RouteDef) : Option ObjectType → List Stmt × List TemplatePart
  | some object =>
      if route.method.allowsBody then ([], [])
      else
        ([.const "query" none (callNamed HelperName.encodeQuery [wireBody object])],
          [.text "?", .hole (.ident "query")])
  | none => ([], [])

/-- The statement that fails on a response that is not ok. -/
def throwUnlessOk : Stmt :=
  let res := Expr.ident "res"
  .cond (.negate (.member res "ok")) [
    .throw (.construct (.ident HelperName.apiError) [
      .member res "status",
      .member res "statusText",
      .await (callNamed HelperName.readErrorBody [res])])]

def returnOf : Option ObjectType → Stmt
  | some response =>
      .ret (some (callNamed (Direction.fromWire.functionName response.name)
        [.await (methodCall (.ident "res") "json" [])]))
  | none => .ret none

/-- What the wrapper returns once the request is done. -/
def resultTy : Option ObjectType → Ty
  | some response => .generic "Promise" [.named response.name]
  | none => .generic "Promise" [.named "void"]

/-- The arguments of the wrapper with the types of what they hold. -/
def arguments (matchInfo body : Option ObjectType) : List (String × ObjectType) :=
  (matchInfo.toList.map fun object => ("matchInfo", object)) ++
    body.toList.map fun object => ("body", object)

/-- The wrapper of the route. All models of the route have to be declared. -/
def wrapper (index : TypeIndex) (route : RouteDef) : Gen TypeScript.Function := do
  if !TypeScript.isIdentifier route.name then
    route.invalid (.invalidName route.name)
  let matchInfo ← object? index route.matchInfo
  let body ← object? index route.body
  let response ← object? index route.response
  let segments ← route.lift (PathSegment.parse route.path)
  let pathParts ← route.pathParts index matchInfo segments
  let (queryStmts, queryParts) := route.queryOf body
  let args := arguments matchInfo body
  let request := Expr.await
    (callNamed "fetch" [urlOf (pathParts ++ queryParts), route.requestOptions body])
  return {
    name := route.name
    doc := route.docLines args
    params := (args.map fun arg => .typed arg.1 (.named arg.2.name)) ++
      [⟨.variable "options", some (.named "RequestInit"), true⟩]
    result := some (resultTy response)
    body := queryStmts ++ [.const "res" none request, throwUnlessOk, returnOf response]
    isAsync := true
    isExported := true }

end RouteDef

end SchemaWire
