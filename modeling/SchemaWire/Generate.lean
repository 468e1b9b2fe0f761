import SchemaWire.Index.Register
import SchemaWire.Route.Helpers
import SchemaWire.Route.Wrapper
import SchemaWire.Schema.Document

/-!
Generation: from a model graph, roots and routes to the text of one module. A module holds, in
this order, a header, the helpers, the enums, the object types, the form types of the routes, the
from-wire functions, the to-wire functions and the route wrappers.
-/
namespace SchemaWire

/-- The comment at the top of every generated module. -/
def generatedHeader : String :=
  "This file is generated by tswire. Do not edit."

namespace RouteDef

/-- The names that the route declares: its wrapper's and its form's, if it has a form. -/
def declaredNames (route : RouteDef) : List String :=
  if route.hasForm then [route.name, route.formName] else [route.name]

/-- Claims the names of a route, given the names that earlier routes declare with their
handlers. A name declared by the index or by a route, this one included, is refused. -/
def claimNames (scope : Scope) (handler : String) (claimed : List (String × String)) :
    List String → Except RouteFault (List (String × String))
  | [] => .ok claimed
  | name :: rest =>
      match scope.owner? name, claimed.lookup name with
      | some owner, _ => .error (.nameTaken name owner)
      | none, some earlier => .error (.nameTaken name ("route " ++ earlier))
      | none, none => claimNames scope handler ((name, handler) :: claimed) rest

/-- Refuses routes that declare a name which is already declared. -/
def checkNames (scope : Scope) (claimed : List (String × String)) : List RouteDef → Gen Unit
  | [] => .ok ()
  | route :: rest => do
      let next ← route.lift (claimNames scope route.handler claimed route.declaredNames)
      checkNames scope next rest

def forms (index : TypeIndex) : List RouteDef → Gen (List ObjectType)
  | [] => .ok []
  | route :: rest => do
      let form ← route.form index
      let others ← forms index rest
      return form.toList ++ others

def wrappers (index : TypeIndex) : List RouteDef → Gen (List TypeScript.Function)
  | [] => .ok []
  | route :: rest => do
      let wrapper ← route.wrapper index
      let others ← wrappers index rest
      return wrapper :: others

end RouteDef

namespace TypeIndex

/-- The module of everything that the index declares, with the routes. -/
def module (index : TypeIndex) (routes : List RouteDef) : Gen TypeScript.Module := do
  RouteDef.checkNames index.scope [] routes
  let forms ← RouteDef.forms index routes
  let wrappers ← RouteDef.wrappers index routes
  return {
    header := [generatedHeader]
    preamble := RouteHelpers.forRoutes routes ++
      if index.needsUnreachable then [RouteHelpers.unreachable] else []
    types := index.enums.typeDecls ++ (index.objects.map fun entry => entry.2.typeDecl) ++
      forms.map ObjectType.typeDecl
    functions := ((index.fromWire ++ index.toWire).map fun entry =>
      .function entry.2.declared) ++ wrappers.map .function }

end TypeIndex

/-- A generated module: its text, and how many models, enums and routes it declares. -/
structure Generated where
  code : String
  models : Nat
  enums : Nat
  routes : Nat
deriving Repr

/-- The roots, and after them the models of the routes that are not among them. -/
def withRouteModels (roots : List ModelPath) (routes : List RouteDef) : List ModelPath :=
  (routes.flatMap RouteDef.models).foldl
    (fun all path => if path ∈ all then all else all ++ [path]) roots

/-- The index for the roots and routes; where there are routes it also holds the models of a
validation error. -/
def indexFor (graph : ModelGraph) (roots : List ModelPath) (routes : List RouteDef) :
    Gen TypeIndex := do
  let index ← TypeIndex.register graph (withRouteModels roots routes)
  if routes.isEmpty then return index
  else TypeIndex.addRoot ValidationModels.graph ValidationModels.response index

def generate (graph : ModelGraph) (roots : List ModelPath) (routes : List RouteDef) :
    Gen Generated := do
  let index ← indexFor graph roots routes
  let module ← index.module routes
  return ⟨module.print, index.size, index.enums.size, routes.length⟩

def SchemaDocument.generate (document : SchemaDocument) : Gen Generated :=
  SchemaWire.generate document.graph document.roots document.routes

end SchemaWire
