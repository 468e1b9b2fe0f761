import Mathlib.Data.List.Nodup
import SchemaWire.Index.Basic

/-!
Lookups in lists of entries. Where no key is repeated, a lookup finds exactly the entries of the
list, in whatever order they stand.
-/
namespace SchemaWire

/-- A key that is not there yet is put last. -/
theorem putEntry_of_not_mem {α : Type} {entries : List (String × α)} {key : String}
    (hnot : key ∉ entries.map Prod.fst) (value : α) :
    putEntry key value entries = entries ++ [(key, value)] := by
  induction entries with
  | nil => rfl
  | cons head rest ih =>
      rw [List.map_cons, List.mem_cons, not_or] at hnot
      rw [putEntry, if_neg (Ne.symm hnot.1), ih hnot.2]
      rfl

variable {κ α : Type} [BEq κ] [LawfulBEq κ]

theorem lookup_eq_some_iff_mem {entries : List (κ × α)} (hnodup : (entries.map Prod.fst).Nodup)
    {key : κ} {value : α} : entries.lookup key = some value ↔ (key, value) ∈ entries := by
  induction entries with
  | nil => simp
  | cons head rest ih =>
      obtain ⟨first, found⟩ := head
      rw [List.map_cons, List.nodup_cons] at hnodup
      by_cases hkey : key = first
      · subst hkey
        rw [List.lookup_cons_self, List.mem_cons]
        constructor
        · intro hfound
          exact Or.inl (by rw [Option.some.inj hfound])
        · rintro (heq | hmem)
          · rw [(Prod.mk.inj heq).2]
          · exact absurd (List.mem_map.mpr ⟨_, hmem, rfl⟩) hnodup.1
      · rw [List.lookup_cons, beq_eq_false_iff_ne.mpr hkey, List.mem_cons]
        simp only [ih hnodup.2, Prod.mk.injEq, hkey, false_and, false_or]

theorem exists_lookup_iff_mem_keys {entries : List (κ × α)} {key : κ} :
    (∃ value, entries.lookup key = some value) ↔ key ∈ entries.map Prod.fst := by
  rw [← Option.isSome_iff_exists, List.lookup_isSome_iff, List.mem_map]
  constructor
  · rintro ⟨entry, hentry, heq⟩
    exact ⟨entry, hentry, (eq_of_beq heq).symm⟩
  · rintro ⟨entry, hentry, rfl⟩
    exact ⟨entry, hentry, beq_self_eq_true entry.1⟩

/-- Without repeated keys the order of the entries does not matter. -/
theorem lookup_reverse {entries : List (κ × α)} (hnodup : (entries.map Prod.fst).Nodup)
    (key : κ) : entries.reverse.lookup key = entries.lookup key := by
  have hreverse : (entries.reverse.map Prod.fst).Nodup := by
    rw [List.map_reverse]
    exact List.nodup_reverse.mpr hnodup
  ext value
  rw [lookup_eq_some_iff_mem hreverse, lookup_eq_some_iff_mem hnodup, List.mem_reverse]

end SchemaWire
