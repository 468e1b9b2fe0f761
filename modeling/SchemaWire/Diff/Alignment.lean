/-!
Alignments of two lists: stretches of items that both have in common, and stretches where items of
the first are replaced by items of the second. Main statement: the alignment of two lists has both
lists as its sides.
-/
namespace SchemaWire.Diff

/-- A stretch of an alignment. -/
inductive Piece (α : Type) where
  | same (items : List α)
  | changed (removed added : List α)
deriving DecidableEq, Repr

namespace Piece

variable {α : Type}

def before : Piece α → List α
  | same items => items
  | changed removed _ => removed

def after : Piece α → List α
  | same items => items
  | changed _ added => added

/-- Puts an item that both lists have in front of an alignment. -/
def keep (item : α) : List (Piece α) → List (Piece α)
  | same items :: rest => same (item :: items) :: rest
  | pieces => same [item] :: pieces

/-- Puts an item that only the first list has in front of an alignment. -/
def remove (item : α) : List (Piece α) → List (Piece α)
  | changed removed added :: rest => changed (item :: removed) added :: rest
  | pieces => changed [item] [] :: pieces

/-- Puts an item that only the second list has in front of an alignment. -/
def add (item : α) : List (Piece α) → List (Piece α)
  | changed removed added :: rest => changed removed (item :: added) :: rest
  | pieces => changed [] [item] :: pieces

end Piece

def before {α : Type} (pieces : List (Piece α)) : List α :=
  pieces.flatMap Piece.before

def after {α : Type} (pieces : List (Piece α)) : List α :=
  pieces.flatMap Piece.after

section Laws

variable {α : Type} (item : α) (pieces : List (Piece α))

@[simp]
theorem before_keep : before (Piece.keep item pieces) = item :: before pieces := by
  unfold Piece.keep
  split <;> simp [before, Piece.before]

@[simp]
theorem after_keep : after (Piece.keep item pieces) = item :: after pieces := by
  unfold Piece.keep
  split <;> simp [after, Piece.after]

@[simp]
theorem before_remove : before (Piece.remove item pieces) = item :: before pieces := by
  unfold Piece.remove
  split <;> simp [before, Piece.before]

@[simp]
theorem after_remove : after (Piece.remove item pieces) = after pieces := by
  unfold Piece.remove
  split <;> simp [after, Piece.after]

@[simp]
theorem before_add : before (Piece.add item pieces) = before pieces := by
  unfold Piece.add
  split <;> simp [before, Piece.before]

@[simp]
theorem after_add : after (Piece.add item pieces) = item :: after pieces := by
  unfold Piece.add
  split <;> simp [after, Piece.after]

end Laws

/-- An alignment and the number of items that it keeps. -/
structure Candidate (α : Type) where
  kept : Nat
  pieces : List (Piece α)

namespace Candidate

variable {α : Type}

/-- Nothing aligned with nothing. -/
def empty : Candidate α :=
  ⟨0, []⟩

/-- Puts an item that both lists have in front. -/
def keep (item : α) (candidate : Candidate α) : Candidate α :=
  ⟨candidate.kept + 1, Piece.keep item candidate.pieces⟩

/-- Puts an item that only the first list has in front. -/
def remove (item : α) (candidate : Candidate α) : Candidate α :=
  ⟨candidate.kept, Piece.remove item candidate.pieces⟩

/-- Puts an item that only the second list has in front. -/
def add (item : α) (candidate : Candidate α) : Candidate α :=
  ⟨candidate.kept, Piece.add item candidate.pieces⟩

/-- The candidate that keeps more items, the first of two that keep equally many. -/
def better (first second : Candidate α) : Candidate α :=
  if first.kept < second.kept then second else first

/-- The candidate has the two lists as its sides. -/
def Aligns (first second : List α) (candidate : Candidate α) : Prop :=
  before candidate.pieces = first ∧ after candidate.pieces = second

theorem Aligns.better {first second : List α} {a b : Candidate α} (ha : a.Aligns first second)
    (hb : b.Aligns first second) : (better a b).Aligns first second := by
  unfold Candidate.better
  split
  · exact hb
  · exact ha

theorem Aligns.keep {first second : List α} {a : Candidate α} (h : a.Aligns first second)
    (item : α) : (a.keep item).Aligns (item :: first) (item :: second) := by
  simp [Aligns, Candidate.keep, h.1, h.2]

theorem Aligns.remove {first second : List α} {a : Candidate α} (h : a.Aligns first second)
    (item : α) : (a.remove item).Aligns (item :: first) second := by
  simp [Aligns, Candidate.remove, h.1, h.2]

theorem Aligns.add {first second : List α} {a : Candidate α} (h : a.Aligns first second)
    (item : α) : (a.add item).Aligns first (item :: second) := by
  simp [Aligns, Candidate.add, h.1, h.2]

end Candidate

/-- A row of candidates for a first list: one for the whole second list, and the row for what
follows the head of the second list. -/
inductive Row (α : Type) where
  | last (candidate : Candidate α)
  | cell (candidate : Candidate α) (rest : Row α)

namespace Row

variable {α : Type}

/-- The candidate for the whole second list. -/
def head : Row α → Candidate α
  | last candidate => candidate
  | cell candidate _ => candidate

/-- The row for the empty first list. -/
def start : List α → Row α
  | [] => last .empty
  | item :: others =>
      let rest := start others
      cell (rest.head.add item) rest

/-- The row for a first list that is longer by one item in front. -/
def extend [DecidableEq α] (item : α) : List α → Row α → Row α
  | other :: others, cell below beyond =>
      let rest := extend item others beyond
      if item = other then cell (beyond.head.keep item) rest
      else cell ((below.remove item).better (rest.head.add other)) rest
  | _, row => last (row.head.remove item)

/-- The row has candidates for the first list and all ends of the second one. -/
def Aligns (first : List α) : List α → Row α → Prop
  | [], last candidate => candidate.Aligns first []
  | item :: others, cell candidate rest =>
      candidate.Aligns first (item :: others) ∧ rest.Aligns first others
  | _, _ => False

theorem Aligns.head {first second : List α} {row : Row α} (h : row.Aligns first second) :
    row.head.Aligns first second := by
  cases second <;> cases row <;> simp_all [Aligns, Row.head]

theorem aligns_start (second : List α) : (start second).Aligns [] second := by
  induction second with
  | nil => simp [start, Aligns, Candidate.Aligns, Candidate.empty, before, after]
  | cons item rest ih => exact ⟨ih.head.add item, ih⟩

theorem Aligns.extend [DecidableEq α] {first second : List α} {row : Row α}
    (h : row.Aligns first second) (item : α) :
    (Row.extend item second row).Aligns (item :: first) second := by
  induction second generalizing row with
  | nil =>
      cases row with
      | last candidate => exact Candidate.Aligns.remove h item
      | cell candidate rest => exact h.elim
  | cons other others ih =>
      cases row with
      | last candidate => exact h.elim
      | cell candidate rest =>
          obtain ⟨hcell, hrest⟩ := h
          have hnext := ih hrest
          simp only [Row.extend]
          split
          · rename_i heq
            subst heq
            exact ⟨hrest.head.keep item, hnext⟩
          · exact ⟨(hcell.remove item).better (hnext.head.add other), hnext⟩

end Row

/-- The alignment of two lists. Each item of the first list in turn, from the last one, is aligned
with all ends of the second list. -/
def align {α : Type} [DecidableEq α] (first second : List α) : List (Piece α) :=
  (first.foldr (fun item row => Row.extend item second row) (Row.start second)).head.pieces

theorem aligns_foldr {α : Type} [DecidableEq α] (first second : List α) :
    (first.foldr (fun item row => Row.extend item second row) (Row.start second)).Aligns first
      second := by
  induction first with
  | nil => exact Row.aligns_start second
  | cons item rest ih => exact ih.extend item

@[simp]
theorem before_align {α : Type} [DecidableEq α] (first second : List α) :
    before (align first second) = first :=
  (aligns_foldr first second).head.1

@[simp]
theorem after_align {α : Type} [DecidableEq α] (first second : List α) :
    after (align first second) = second :=
  (aligns_foldr first second).head.2

example : align [1, 2, 3, 4] [1, 3, 5, 4] =
    [.same [1], .changed [2] [], .same [3], .changed [] [5], .same [4]] := by decide

end SchemaWire.Diff
