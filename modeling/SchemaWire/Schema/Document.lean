import SchemaWire.Schema.Model
import SchemaWire.TypeScript.Name

/-!
Routes, which are what the wrappers of server handlers are made from, and schema documents: the
models, roots and routes of one generation.
-/
namespace SchemaWire

inductive HttpMethod where
  | get
  | post
  | put
  | patch
  | delete
  | head
deriving DecidableEq, Repr

namespace HttpMethod

def name : HttpMethod → String
  | get => "GET"
  | post => "POST"
  | put => "PUT"
  | patch => "PATCH"
  | delete => "DELETE"
  | head => "HEAD"

def lowerName : HttpMethod → String
  | get => "get"
  | post => "post"
  | put => "put"
  | patch => "patch"
  | delete => "delete"
  | head => "head"

def all : List HttpMethod :=
  [get, post, put, patch, delete, head]

/-- The method of a name, which is in upper or in lower case throughout. -/
def ofName? (name : String) : Option HttpMethod :=
  all.find? fun method => method.name = name || method.lowerName = name

/-- Whether a request of this method carries a body. -/
def allowsBody : HttpMethod → Bool
  | get | head => false
  | _ => true

theorem ofName?_name (method : HttpMethod) : ofName? method.name = some method := by
  cases method <;> decide +kernel

end HttpMethod

/-- A route. Each of the three models may be missing: nothing is then matched, sent or returned. -/
structure RouteDef where
  handler : String
  explicitName : Option String
  method : HttpMethod
  path : String
  matchInfo : Option ModelPath
  body : Option ModelPath
  response : Option ModelPath
deriving DecidableEq, Repr

namespace RouteDef

/-- The name of the wrapper: the explicit one, or the handler's in camel case. -/
def name (route : RouteDef) : String :=
  route.explicitName.getD (TypeScript.camelCase route.handler)

/-- The models the route refers to, in the order match info, body, response. -/
def models (route : RouteDef) : List ModelPath :=
  route.matchInfo.toList ++ route.body.toList ++ route.response.toList

/-- Whether the body travels in the query string, as the method carries none. -/
def sendsQuery (route : RouteDef) : Bool :=
  route.body.isSome && !route.method.allowsBody

/-- Whether the route has a form: something is matched or sent. -/
def hasForm (route : RouteDef) : Bool :=
  route.matchInfo.isSome || route.body.isSome

/-- The name of the form type: the capitalised wrapper name and `Form`. -/
def formName (route : RouteDef) : String :=
  Text.capitalize route.name ++ "Form"

end RouteDef

/-- A complete input of the generator. -/
structure SchemaDocument where
  graph : ModelGraph
  declaredRoots : List ModelPath
  routes : List RouteDef
deriving Repr

namespace SchemaDocument

def empty : SchemaDocument :=
  ⟨ModelGraph.empty, [], []⟩

/-- The roots to generate: the declared ones, or every model where none is declared. -/
def roots (document : SchemaDocument) : List ModelPath :=
  if document.declaredRoots = [] then document.graph.paths else document.declaredRoots

end SchemaDocument

end SchemaWire
