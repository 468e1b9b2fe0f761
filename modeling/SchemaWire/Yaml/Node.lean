/-!
Documents as trees of nodes. An alias stands for the node that its anchor marks.
-/
namespace SchemaWire.Yaml

/-- What a node may be marked with: an anchor, which goes by its number, and a tag. -/
structure Marks where
  anchor : Option Nat
  tag : Option String
deriving DecidableEq, Repr

/-- A node of a document. A scalar that is not plain is quoted or a block. -/
inductive Node where
  | alias (number : Nat)
  | scalar (marks : Marks) (text : String) (isPlain : Bool)
  | sequence (marks : Marks) (items : List Node)
  | mapping (marks : Marks) (entries : List (Node × Node))
deriving Repr

namespace Node

/-- The node of a place where nothing is written. -/
def nothing : Node :=
  .scalar ⟨none, none⟩ "" true

mutual
/-- The size of a node: a collection counts twice, for its start and its end. -/
def size : Node → Nat
  | .alias _ => 1
  | .scalar _ _ _ => 1
  | .sequence _ items => sizeOfItems items + 2
  | .mapping _ entries => sizeOfEntries entries + 2

def sizeOfItems : List Node → Nat
  | [] => 0
  | item :: rest => item.size + sizeOfItems rest

def sizeOfEntries : List (Node × Node) → Nat
  | [] => 0
  | (key, value) :: rest => key.size + value.size + sizeOfEntries rest
end

def underAnchor (marks : Marks) (node : Node) : List (Nat × Node) :=
  marks.anchor.toList.map fun number => (number, node)

mutual
/-- The nodes under anchors, in the order in which they begin. -/
def anchored : Node → List (Nat × Node)
  | .alias _ => []
  | .scalar marks text isPlain => underAnchor marks (.scalar marks text isPlain)
  | .sequence marks items => underAnchor marks (.sequence marks items) ++ anchoredItems items
  | .mapping marks entries =>
      underAnchor marks (.mapping marks entries) ++ anchoredEntries entries

/-- The nodes under anchors among items. -/
def anchoredItems : List Node → List (Nat × Node)
  | [] => []
  | item :: rest => item.anchored ++ anchoredItems rest

/-- The nodes under anchors among keys and values. -/
def anchoredEntries : List (Node × Node) → List (Nat × Node)
  | [] => []
  | (key, value) :: rest => key.anchored ++ value.anchored ++ anchoredEntries rest
end

end Node

end SchemaWire.Yaml
