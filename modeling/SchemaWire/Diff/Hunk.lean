import SchemaWire.Diff.Alignment

/-!
Hunks of an alignment: its changes, together with the common items close to them. Of a stretch of
common items only those are shown that are near a change, and where there are others between, one
hunk ends and another one begins.
-/
namespace SchemaWire.Diff

/-- A run of pieces that are shown together. -/
abbrev Hunk (α : Type) := List (Piece α)

def lastItems {α : Type} (count : Nat) (items : List α) : List α :=
  items.drop (items.length - count)

def hasChange {α : Type} (hunk : Hunk α) : Bool :=
  hunk.any fun piece =>
    match piece with
    | .same _ => false
    | .changed _ _ => true

def closeHunk {α : Type} (hunk : Hunk α) : List (Hunk α) :=
  if hasChange hunk then [hunk] else []

/-- The hunks of the pieces that follow an open hunk, with so many items around changes. -/
def hunksFrom {α : Type} (context : Nat) (hunk : Hunk α) : List (Piece α) → List (Hunk α)
  | [] => closeHunk hunk
  | [.same items] => closeHunk (hunk ++ [.same (items.take context)])
  | .same items :: rest =>
      if context * 2 < items.length then
        closeHunk (hunk ++ [.same (items.take context)]) ++
          hunksFrom context [.same (lastItems context items)] rest
      else hunksFrom context (hunk ++ [.same items]) rest
  | piece :: rest => hunksFrom context (hunk ++ [piece]) rest

/-- The hunks of an alignment, with so many items around changes. -/
def hunks {α : Type} (context : Nat) : List (Piece α) → List (Hunk α)
  | .same items :: rest =>
      if rest.isEmpty then [] else hunksFrom context [.same (lastItems context items)] rest
  | pieces => hunksFrom context [] pieces

example : hunks 1 [.same [1, 2], .changed [3] [], .same [4, 5, 6], .changed [] [7]] =
    [[.same [2], .changed [3] [], .same [4]], [.same [6], .changed [] [7]]] := by decide

end SchemaWire.Diff
