import SchemaWire.Error
import SchemaWire.Schema.TypeExpr
import SchemaWire.SortedMap

/-!
Models and the graph of all models known to a generation. The graph finds a model by its path and
lists the paths in ascending order.
-/
namespace SchemaWire

/-- A declared field. The default is documentation only; an explicit `null` is a default. -/
structure FieldDef where
  name : String
  ty : TypeExpr
  default : Option LiteralValue
deriving DecidableEq, Repr

/-- A record type: its fields in the order of their declaration. -/
structure ModelDef where
  fields : List FieldDef
deriving DecidableEq, Repr

/-- All models known to a generation. -/
structure ModelGraph where
  models : SortedMap ModelDef
deriving Repr

namespace ModelGraph

def empty : ModelGraph :=
  ⟨SortedMap.empty⟩

/-- Adds a model, in place of the one of the same path if there is one. -/
def insert (graph : ModelGraph) (path : ModelPath) (model : ModelDef) : ModelGraph :=
  ⟨graph.models.insert path.text model⟩

/-- The graph of a list of models; of several with the same path the last one counts. -/
def ofList (models : List (ModelPath × ModelDef)) : ModelGraph :=
  models.foldl (fun graph entry => graph.insert entry.1 entry.2) empty

def get? (graph : ModelGraph) (path : ModelPath) : Option ModelDef :=
  graph.models.get? path.text

def require (graph : ModelGraph) (path : ModelPath) : Gen ModelDef :=
  match graph.get? path with
  | some model => .ok model
  | none => .error (.unknownModel path)

def paths (graph : ModelGraph) : List ModelPath :=
  graph.models.keys.map ModelPath.mk

def size (graph : ModelGraph) : Nat :=
  graph.models.size

def isEmpty (graph : ModelGraph) : Bool :=
  graph.models.isEmpty

theorem mem_paths_of_get? {graph : ModelGraph} {path : ModelPath} {model : ModelDef}
    (h : graph.get? path = some model) : path ∈ graph.paths := by
  have hmem : ∀ entries : List (String × ModelDef), entries.lookup path.text = some model →
      path.text ∈ entries.map Prod.fst := by
    intro entries
    induction entries with
    | nil => simp
    | cons head rest ih =>
        intro hlookup
        rw [List.lookup_cons] at hlookup
        by_cases hkey : path.text = head.1
        · simp [hkey]
        · rw [beq_eq_false_iff_ne.mpr hkey] at hlookup
          exact List.mem_cons_of_mem _ (ih hlookup)
  exact List.mem_map.mpr ⟨path.text, hmem _ h, rfl⟩

theorem require_eq_ok_iff {graph : ModelGraph} {path : ModelPath} {model : ModelDef} :
    graph.require path = .ok model ↔ graph.get? path = some model := by
  unfold require
  split <;> simp_all

end ModelGraph

end SchemaWire
