import SchemaWire.Index.ObjectType
import SchemaWire.Index.Scope
import SchemaWire.Wire.Function

/-!
The index of a generation: the declared object types with their conversion functions, in the
order of their declaration, the model behind each declared name, and the scope of top-level names.
-/
namespace SchemaWire

/-- Puts a value under a key: in the place of the old value if there is one, otherwise last. -/
def putEntry {α : Type} (key : String) (value : α) : List (String × α) → List (String × α)
  | [] => [(key, value)]
  | (k, v) :: rest =>
      if k = key then (key, value) :: rest else (k, v) :: putEntry key value rest

/-- Everything declared for a list of root models. -/
structure TypeIndex where
  objects : List (ModelPath × ObjectType)
  byName : List (String × ModelPath)
  fromWire : List (ModelPath × WireFunction)
  toWire : List (ModelPath × WireFunction)
  scope : Scope
deriving Repr

namespace TypeIndex

/-- The index in which nothing is declared yet. -/
def empty : TypeIndex :=
  ⟨[], [], [], [], Scope.initial⟩

def object? (index : TypeIndex) (path : ModelPath) : Option ObjectType :=
  index.objects.lookup path

def requireObject (index : TypeIndex) (path : ModelPath) : Gen ObjectType :=
  match index.object? path with
  | some object => .ok object
  | none => .error (.unknownModel path)

def objectByName? (index : TypeIndex) (name : String) : Option ObjectType := do
  let path ← index.byName.lookup name
  index.object? path

def contains (index : TypeIndex) (path : ModelPath) : Bool :=
  index.objects.any fun entry => entry.1 == path

def paths (index : TypeIndex) : List ModelPath :=
  index.objects.map Prod.fst

def fromWire? (index : TypeIndex) (path : ModelPath) : Option WireFunction :=
  index.fromWire.lookup path

def toWire? (index : TypeIndex) (path : ModelPath) : Option WireFunction :=
  index.toWire.lookup path

def enums (index : TypeIndex) : EnumRegistry :=
  index.scope.enums

def size (index : TypeIndex) : Nat :=
  index.objects.length

def isEmpty (index : TypeIndex) : Bool :=
  index.objects.isEmpty

/-- Whether some conversion function tells the variants of a union apart, and so may call
`unreachable`. -/
def needsUnreachable (index : TypeIndex) : Bool :=
  index.objects.any fun entry => entry.2.hasUnionOfModels

def claim (index : TypeIndex) (name owner : String) : Gen TypeIndex := do
  let scope ← index.scope.claim name owner
  return { index with scope }

end TypeIndex

end SchemaWire
