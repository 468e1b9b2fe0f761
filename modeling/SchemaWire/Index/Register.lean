import SchemaWire.Descriptor.Classify
import SchemaWire.Wire.Convert

/-!
Registration: everything reachable from a root is declared, depth first and each model once; then
the conversion functions of the new models are built. The traversal keeps the list of pending
paths and ends because each declaration takes an undeclared path of the graph.
-/
namespace SchemaWire

/-- Declares the fields of a model in order: each is classified and its enum tags are declared.
An unsupported shape is located by the model's name and the field's. -/
def Scope.declareFields (scope : Scope) (model : String) :
    List FieldDef → Gen (Scope × List ObjectField)
  | [] => .ok (scope, [])
  | field :: rest => do
      let descriptor ← (field.ty.classify).mapError (.located (model ++ "." ++ field.name))
      let tagged ← scope.declareTags descriptor.enumTags
      let (last, fields) ← tagged.declareFields model rest
      return (last, ⟨field.name, descriptor, descriptor.render, field.default⟩ :: fields)

/-- Declares a model under its short name: claims the name and those of its two conversion
functions, then declares its fields. -/
def Scope.declareModel (scope : Scope) (path : ModelPath) (model : ModelDef) :
    Gen (Scope × ObjectType) := do
  let name := path.shortName
  if TypeScript.isIdentifier name then
    let named ← scope.claim name path.text
    let fromNamed ← named.claim (Direction.fromWire.functionName name)
      ("the from-wire function of " ++ path.text)
    let toNamed ← fromNamed.claim (Direction.toWire.functionName name)
      ("the to-wire function of " ++ path.text)
    let (last, fields) ← toNamed.declareFields name model.fields
    return (last, ⟨name, some path, fields, true⟩)
  else
    throw (.invalidIdentifier name)

namespace TypeIndex

def declare (graph : ModelGraph) (path : ModelPath) (index : TypeIndex) :
    Gen (TypeIndex × ObjectType) := do
  let model ← graph.require path
  let (scope, object) ← index.scope.declareModel path model
  let objects := index.objects ++ [(path, object)]
  let byName := putEntry object.name path index.byName
  return ({ index with objects, byName, scope }, object)

/-- The number of models of the graph that are not declared. -/
def undeclared (graph : ModelGraph) (index : TypeIndex) : Nat :=
  (graph.paths.filter fun path => !index.contains path).length

theorem contains_declare {graph : ModelGraph} {path : ModelPath} {index next : TypeIndex}
    {object : ObjectType} (h : declare graph path index = .ok (next, object)) (other : ModelPath) :
    next.contains other = (index.contains other || path == other) := by
  unfold declare at h
  cases hrequire : graph.require path with
  | error e => rw [hrequire] at h; cases h
  | ok model =>
      rw [hrequire] at h
      cases hmodel : index.scope.declareModel path model with
      | error e => simp [bind, Except.bind, hmodel] at h
      | ok result =>
          simp only [bind, Except.bind, hmodel, pure, Except.pure, Except.ok.injEq,
            Prod.mk.injEq] at h
          rw [← h.1]
          simp [contains]

theorem mem_paths_of_declare {graph : ModelGraph} {path : ModelPath} {index next : TypeIndex}
    {object : ObjectType} (h : declare graph path index = .ok (next, object)) :
    path ∈ graph.paths := by
  unfold declare at h
  cases hrequire : graph.require path with
  | error e => rw [hrequire] at h; cases h
  | ok model => exact ModelGraph.mem_paths_of_get? (ModelGraph.require_eq_ok_iff.mp hrequire)

theorem undeclared_lt_of_declare {graph : ModelGraph} {path : ModelPath}
    {index next : TypeIndex} {object : ObjectType} (hnew : index.contains path = false)
    (h : declare graph path index = .ok (next, object)) :
    undeclared graph next < undeclared graph index := by
  have hfilter : graph.paths.filter (fun other => !next.contains other) =
      (graph.paths.filter fun other => !index.contains other).filter
        fun other => !next.contains other := by
    rw [List.filter_filter]
    refine List.filter_congr fun other _ => ?_
    rw [contains_declare h]
    cases index.contains other <;> simp
  unfold undeclared
  rw [hfilter, List.length_filter_lt_length_iff_exists]
  refine ⟨path, ?_, ?_⟩
  · simp [mem_paths_of_declare h, hnew]
  · simp [contains_declare h]

/-- Declares the pending models in order, each with everything reachable from it before the next
one. Declared models are skipped. -/
def visit (graph : ModelGraph) : List ModelPath → TypeIndex → Gen TypeIndex
  | [], index => .ok index
  | path :: pending, index =>
      if index.contains path then
        visit graph pending index
      else
        match _hdeclared : declare graph path index with
        | .error fault => .error fault
        | .ok (next, object) => visit graph (object.references ++ pending) next
termination_by pending index => (undeclared graph index, pending.length)
decreasing_by
  · simp_wf
    exact Prod.Lex.right _ (Nat.lt_succ_self _)
  · rename_i hnew
    exact Prod.Lex.left _ _ (undeclared_lt_of_declare (by simpa using hnew) _hdeclared)

/-- Builds both conversion functions of each of the paths, in order. -/
def wireFunctions (index : TypeIndex) :
    List ModelPath → Gen (List (ModelPath × WireFunction) × List (ModelPath × WireFunction))
  | [] => .ok ([], [])
  | path :: rest => do
      let fromFunction ← index.wireFunction .fromWire path
      let toFunction ← index.wireFunction .toWire path
      let (fromRest, toRest) ← index.wireFunctions rest
      return ((path, fromFunction) :: fromRest, (path, toFunction) :: toRest)

/-- Declares everything reachable from a root, with the conversion functions of what is new. -/
def addRoot (graph : ModelGraph) (root : ModelPath) (index : TypeIndex) : Gen TypeIndex := do
  let visited ← visit graph [root] index
  let added := visited.paths.drop index.size
  let (fromNew, toNew) ← visited.wireFunctions added
  return { visited with fromWire := visited.fromWire ++ fromNew, toWire := visited.toWire ++ toNew }

def addRoots (graph : ModelGraph) : List ModelPath → TypeIndex → Gen TypeIndex
  | [], index => .ok index
  | root :: rest, index => do
      let next ← addRoot graph root index
      addRoots graph rest next

def register (graph : ModelGraph) (roots : List ModelPath) : Gen TypeIndex :=
  addRoots graph roots empty

end TypeIndex

end SchemaWire
