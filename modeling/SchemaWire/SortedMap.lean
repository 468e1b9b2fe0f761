/-!
Maps from texts in ascending order of their keys. The order is by code points, which is also the
order of the UTF-8 bytes. The main statements say what a lookup finds after an insertion.
-/
namespace SchemaWire

/-- Keys with their values, strictly ascending by key. -/
structure SortedMap (α : Type) where
  entries : List (String × α)
  ascending : entries.Pairwise (fun a b => a.1 < b.1)
deriving Repr

namespace SortedMap

variable {α : Type}

def empty : SortedMap α :=
  ⟨[], List.Pairwise.nil⟩

instance : Inhabited (SortedMap α) := ⟨empty⟩

/-- Puts a value at its key's place among ascending entries, over the old value if there is one. -/
def insertEntry (key : String) (value : α) : List (String × α) → List (String × α)
  | [] => [(key, value)]
  | (k, v) :: rest =>
      if key < k then (key, value) :: (k, v) :: rest
      else if key = k then (key, value) :: rest
      else (k, v) :: insertEntry key value rest

theorem lt_of_not_lt_of_ne {a b : String} (hlt : ¬ a < b) (hne : a ≠ b) : b < a := by
  by_cases h : b < a
  · exact h
  · exact absurd (String.le_antisymm (String.not_lt.mp h) (String.not_lt.mp hlt)) hne

theorem mem_insertEntry {key : String} {value : α} {entries : List (String × α)}
    {entry : String × α} (hmem : entry ∈ insertEntry key value entries) :
    entry = (key, value) ∨ entry ∈ entries := by
  induction entries with
  | nil => simpa [insertEntry] using hmem
  | cons head rest ih =>
      simp only [insertEntry] at hmem
      split at hmem
      · simpa using hmem
      · split at hmem
        · rcases List.mem_cons.mp hmem with h | h
          · exact Or.inl h
          · exact Or.inr (List.mem_cons_of_mem _ h)
        · rcases List.mem_cons.mp hmem with h | h
          · exact Or.inr (by simp [h])
          · rcases ih h with h | h
            · exact Or.inl h
            · exact Or.inr (List.mem_cons_of_mem _ h)

theorem ascending_insertEntry (key : String) (value : α) {entries : List (String × α)}
    (h : entries.Pairwise (fun a b => a.1 < b.1)) :
    (insertEntry key value entries).Pairwise (fun a b => a.1 < b.1) := by
  induction entries with
  | nil => simp [insertEntry]
  | cons head rest ih =>
      rw [List.pairwise_cons] at h
      simp only [insertEntry]
      split
      · rename_i hlt
        rw [List.pairwise_cons]
        refine ⟨fun entry hentry => ?_, List.pairwise_cons.mpr h⟩
        rcases List.mem_cons.mp hentry with rfl | hrest
        · exact hlt
        · exact String.lt_trans hlt (h.1 entry hrest)
      · split
        · rename_i heq
          subst heq
          exact List.pairwise_cons.mpr h
        · rename_i hlt hne
          rw [List.pairwise_cons]
          refine ⟨fun entry hentry => ?_, ih h.2⟩
          rcases mem_insertEntry hentry with rfl | hrest
          · exact lt_of_not_lt_of_ne hlt hne
          · exact h.1 entry hrest

/-- Inserts a value, or replaces the one under the same key. -/
def insert (map : SortedMap α) (key : String) (value : α) : SortedMap α :=
  ⟨insertEntry key value map.entries, ascending_insertEntry key value map.ascending⟩

/-- The value under a key. -/
def get? (map : SortedMap α) (key : String) : Option α :=
  map.entries.lookup key

def keys (map : SortedMap α) : List String :=
  map.entries.map Prod.fst

def size (map : SortedMap α) : Nat :=
  map.entries.length

def isEmpty (map : SortedMap α) : Bool :=
  map.entries.isEmpty

/-- The map of a list of entries; of entries with the same key the last one counts. -/
def ofList (entries : List (String × α)) : SortedMap α :=
  entries.foldl (fun map entry => map.insert entry.1 entry.2) empty

theorem lookup_cons_of_ne {key k : String} (hne : key ≠ k) (value : α)
    (rest : List (String × α)) : ((k, value) :: rest).lookup key = rest.lookup key := by
  rw [List.lookup_cons, beq_eq_false_iff_ne.mpr hne]

theorem lookup_insertEntry_self (key : String) (value : α) (entries : List (String × α)) :
    (insertEntry key value entries).lookup key = some value := by
  induction entries with
  | nil => simp [insertEntry]
  | cons head rest ih =>
      simp only [insertEntry]
      split
      · simp
      · split
        · simp
        · rename_i hne
          rw [lookup_cons_of_ne hne, ih]

theorem lookup_insertEntry_of_ne {key other : String} (hne : other ≠ key) (value : α)
    (entries : List (String × α)) :
    (insertEntry key value entries).lookup other = entries.lookup other := by
  induction entries with
  | nil => rw [insertEntry, lookup_cons_of_ne hne]
  | cons head rest ih =>
      obtain ⟨k, v⟩ := head
      simp only [insertEntry]
      split
      · rw [lookup_cons_of_ne hne]
      · split
        · rename_i heq
          subst heq
          rw [lookup_cons_of_ne hne, lookup_cons_of_ne hne]
        · rw [List.lookup_cons, List.lookup_cons, ih]

@[simp]
theorem get?_insert_self (map : SortedMap α) (key : String) (value : α) :
    (map.insert key value).get? key = some value :=
  lookup_insertEntry_self key value map.entries

theorem get?_insert_of_ne (map : SortedMap α) {key other : String} (hne : other ≠ key)
    (value : α) : (map.insert key value).get? other = map.get? other :=
  lookup_insertEntry_of_ne hne value map.entries

@[simp]
theorem get?_empty (key : String) : (empty : SortedMap α).get? key = none := rfl

end SortedMap

end SchemaWire
