import SchemaWire.Index.EnumRegistry

/-!
The top-level names of a generated module. What the generated code refers to is reserved from the
start; every declaration claims its name, and no name has two owners.
-/
namespace SchemaWire

namespace HelperName

/-- The error that a wrapper throws. -/
def apiError : String := "ApiError"

/-- Called when a value fits no variant of a union. -/
def unreachable : String := "unreachable"

/-- Reads the body of a failed response. -/
def readErrorBody : String := "readErrorBody"

/-- Turns a wire object into a query string. -/
def encodeQuery : String := "encodeQuery"

/-- Checks the shape of a validation error. -/
def isValidationErrorResponse : String := "isValidationErrorResponse"

/-- The names of all helpers that a generated module may declare. -/
def all : List String :=
  [apiError, unreachable, readErrorBody, encodeQuery, isValidationErrorResponse]

end HelperName

/-- Globals that generated types and route wrappers refer to. -/
def globalNames : List String := [
  "Array", "Date", "Error", "JSON", "Object", "Promise", "Record", "RequestInit", "Response",
  "String", "URLSearchParams", "encodeURIComponent", "fetch"]

/-- The names that have an owner before anything is declared. -/
def reservedOwners : List (String × String) :=
  globalNames.map (fun name => (name, "the TypeScript global")) ++
    HelperName.all.map fun name => (name, "a generated helper")

/-- Who declares which name, in the order of the claims, and the enums declared so far. -/
structure Scope where
  owners : List (String × String)
  enums : EnumRegistry
deriving Repr

namespace Scope

/-- The scope in which only the reserved names have owners. -/
def initial : Scope :=
  ⟨reservedOwners, EnumRegistry.empty⟩

/-- Who declares the name. -/
def owner? (scope : Scope) (name : String) : Option String :=
  scope.owners.lookup name

/-- Claims a name. Its owner may claim it again, nobody else. -/
def claim (scope : Scope) (name owner : String) : Gen Scope :=
  match scope.owner? name with
  | none => .ok { scope with owners := scope.owners ++ [(name, owner)] }
  | some current =>
      if current = owner then .ok scope else .error (.nameConflict name current owner)

def declareTag (scope : Scope) (tag : EnumTag) (inner : Descriptor) : Gen Scope := do
  tag.check inner
  let claimed ← scope.claim tag.name ("enum " ++ tag.name)
  return { claimed with enums := claimed.enums.add tag }

def declareTags (scope : Scope) : List (EnumTag × Descriptor) → Gen Scope
  | [] => .ok scope
  | (tag, inner) :: rest => do
      let next ← scope.declareTag tag inner
      next.declareTags rest

theorem owner?_claim {scope next : Scope} {name owner : String}
    (h : scope.claim name owner = .ok next) : next.owner? name = some owner := by
  unfold claim at h
  split at h
  · rename_i hnone
    cases h
    simp only [owner?, List.lookup_append]
    rw [show scope.owners.lookup name = none from hnone]
    simp
  · rename_i current hsome
    split at h
    · rename_i heq
      cases h
      rw [hsome, heq]
    · cases h

theorem owner?_claim_of_ne {scope next : Scope} {name owner other : String}
    (h : scope.claim name owner = .ok next) (hne : other ≠ name) :
    next.owner? other = scope.owner? other := by
  unfold claim at h
  split at h
  · cases h
    simp only [owner?, List.lookup_append]
    rw [SortedMap.lookup_cons_of_ne hne]
    simp
  · split at h <;> cases h
    rfl

end Scope

end SchemaWire
