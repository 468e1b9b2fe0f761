import Mathlib.Data.List.Sort
import SchemaWire.Index.EnumRegistry
import SchemaWire.Proofs.Entries

/-!
What the enums of an index depend on. A registry is determined by its names and their values, and
after any tags it has the names and values of these tags, whatever their order and however often
each of them comes.
-/
namespace SchemaWire

namespace SortedMap

variable {α : Type}

theorem ascending_keys (map : SortedMap α) : map.keys.Pairwise (· < ·) := by
  rw [keys, List.pairwise_map]
  exact map.ascending

theorem nodup_keys (map : SortedMap α) : map.keys.Nodup := by
  refine map.ascending_keys.imp fun {first second} hlt heq => ?_
  rw [heq] at hlt
  exact String.lt_irrefl _ hlt

theorem mem_keys_iff {map : SortedMap α} {key : String} :
    key ∈ map.keys ↔ ∃ value, map.get? key = some value :=
  exists_lookup_iff_mem_keys.symm

theorem mem_keys_insert {map : SortedMap α} {key other : String} {value : α} :
    other ∈ (map.insert key value).keys ↔ other = key ∨ other ∈ map.keys := by
  by_cases hkey : other = key
  · subst hkey
    simp [mem_keys_iff]
  · simp [mem_keys_iff, get?_insert_of_ne map hkey, hkey]

/-- Maps with the same values under all keys are the same. -/
theorem ext_get? {first second : SortedMap α} (h : ∀ key, first.get? key = second.get? key) :
    first = second := by
  have hentries : first.entries = second.entries := by
    have : Std.Irrefl fun a b : String × α => a.1 < b.1 := ⟨fun a => String.lt_irrefl a.1⟩
    have : Std.Antisymm fun a b : String × α => a.1 < b.1 :=
      ⟨fun a b hlt hgt => absurd hgt (String.lt_asymm hlt)⟩
    refine first.ascending.eq_of_mem_iff second.ascending fun entry => ?_
    rw [← lookup_eq_some_iff_mem first.nodup_keys, ← lookup_eq_some_iff_mem second.nodup_keys]
    exact iff_of_eq (congrArg (· = some entry.2) (h entry.1))
  cases first
  cases second
  exact (SortedMap.mk.injEq _ _ _ _).mpr hentries

theorem get?_foldl_insert {entries : List (String × α)} (hnodup : (entries.map Prod.fst).Nodup)
    (map : SortedMap α) (key : String) :
    (entries.foldl (fun map entry => map.insert entry.1 entry.2) map).get? key =
      (entries.lookup key).or (map.get? key) := by
  induction entries generalizing map with
  | nil => rfl
  | cons entry rest ih =>
      rw [List.map_cons, List.nodup_cons] at hnodup
      rw [List.foldl_cons, ih hnodup.2]
      by_cases hkey : key = entry.1
      · subst hkey
        have hrest : rest.lookup entry.1 = none := by
          rw [Option.eq_none_iff_forall_ne_some]
          exact fun value hvalue => hnodup.1 (exists_lookup_iff_mem_keys.mp ⟨value, hvalue⟩)
        rw [hrest, get?_insert_self, List.lookup_cons_self]
        rfl
      · rw [get?_insert_of_ne map hkey, lookup_cons_of_ne hkey]

/-- The entries of a map make the map, in whatever order they come. -/
theorem ofList_eq_of_perm {entries : List (String × α)} {map : SortedMap α}
    (h : entries.Perm map.entries) : ofList entries = map := by
  have hnodup : (entries.map Prod.fst).Nodup := (h.map Prod.fst).nodup_iff.mpr map.nodup_keys
  refine ext_get? fun key => ?_
  rw [ofList, get?_foldl_insert hnodup, get?_empty, Option.or_none]
  ext value
  rw [lookup_eq_some_iff_mem hnodup, h.mem_iff, ← lookup_eq_some_iff_mem map.nodup_keys]
  rfl

/-- Without values, the keys determine the map. -/
theorem ext_keys {first second : SortedMap Unit}
    (h : ∀ key, key ∈ first.keys ↔ key ∈ second.keys) : first = second := by
  refine ext_get? fun key => ?_
  have hkey := h key
  simp only [mem_keys_iff] at hkey
  cases hfirst : first.get? key <;> cases hsecond : second.get? key <;>
    simp_all

theorem mem_keys_foldl_insert {keys : List String} {map : SortedMap Unit} {key : String} :
    key ∈ (keys.foldl (fun map key => map.insert key ()) map).keys ↔
      key ∈ keys ∨ key ∈ map.keys := by
  induction keys generalizing map with
  | nil => simp
  | cons head rest ih =>
      rw [List.foldl_cons, ih, mem_keys_insert, List.mem_cons]
      tauto

end SortedMap

namespace EnumRegistry

/-- The value is one of the enum of that name. -/
def Lists (registry : EnumRegistry) (name value : String) : Prop :=
  ∃ values, registry.enums.get? name = some values ∧ value ∈ values.keys

theorem mem_names_add {registry : EnumRegistry} {tag : EnumTag} {name : String} :
    name ∈ (registry.add tag).names ↔ name = tag.name ∨ name ∈ registry.names :=
  SortedMap.mem_keys_insert

theorem lists_add {registry : EnumRegistry} {tag : EnumTag} {name value : String} :
    (registry.add tag).Lists name value ↔
      (tag.name = name ∧ value ∈ tag.values) ∨ registry.Lists name value := by
  by_cases hname : name = tag.name
  · subst hname
    simp only [Lists, add, SortedMap.get?_insert_self, Option.some.injEq, exists_eq_left',
      SortedMap.mem_keys_foldl_insert, true_and]
    cases registry.enums.get? tag.name <;> simp [SortedMap.keys, SortedMap.empty]
  · simp [Lists, add, SortedMap.get?_insert_of_ne _ hname, Ne.symm hname]

/-- After tags, the enums are those before and those of the tags. -/
theorem mem_names_foldl {tags : List (EnumTag × Descriptor)} {registry : EnumRegistry}
    {name : String} : name ∈ (tags.foldl (fun enums tag => enums.add tag.1) registry).names ↔
      name ∈ registry.names ∨ ∃ tag ∈ tags, tag.1.name = name := by
  induction tags generalizing registry with
  | nil => simp
  | cons head rest ih =>
      rw [List.foldl_cons, ih, mem_names_add, List.exists_mem_cons_iff, @eq_comm _ name]
      tauto

/-- After tags, an enum has the values that it had and those that a tag gives it. -/
theorem lists_foldl {tags : List (EnumTag × Descriptor)} {registry : EnumRegistry}
    {name value : String} :
    (tags.foldl (fun enums tag => enums.add tag.1) registry).Lists name value ↔
      registry.Lists name value ∨ ∃ tag ∈ tags, tag.1.name = name ∧ value ∈ tag.1.values := by
  induction tags generalizing registry with
  | nil => simp
  | cons head rest ih =>
      rw [List.foldl_cons, ih, lists_add, List.exists_mem_cons_iff]
      tauto

/-- Registries with the same enums of the same values are the same. -/
theorem ext {first second : EnumRegistry}
    (hnames : ∀ name, name ∈ first.names ↔ name ∈ second.names)
    (hvalues : ∀ name value, first.Lists name value ↔ second.Lists name value) :
    first = second := by
  have henums : first.enums = second.enums := by
    refine SortedMap.ext_get? fun name => ?_
    have hname := hnames name
    have hvalue := hvalues name
    simp only [names, SortedMap.mem_keys_iff] at hname
    simp only [Lists] at hvalue
    cases hfirst : first.enums.get? name with
    | none =>
        cases hsecond : second.enums.get? name with
        | none => rfl
        | some values => simp [hfirst, hsecond] at hname
    | some values =>
        cases hsecond : second.enums.get? name with
        | none => simp [hfirst, hsecond] at hname
        | some others =>
            refine congrArg some (SortedMap.ext_keys fun key => ?_)
            simpa [hfirst, hsecond] using hvalue key
  cases first
  cases second
  exact congrArg EnumRegistry.mk henums

/-- The enums that tags give depend on which tags there are, not on their order or repetition. -/
theorem foldl_eq_of_mem_iff {tags others : List (EnumTag × Descriptor)}
    (h : ∀ tag, tag ∈ tags ↔ tag ∈ others) (registry : EnumRegistry) :
    tags.foldl (fun enums tag => enums.add tag.1) registry =
      others.foldl (fun enums tag => enums.add tag.1) registry := by
  refine ext (fun name => ?_) fun name value => ?_
  · simp only [mem_names_foldl, h]
  · simp only [lists_foldl, h]

theorem values?_eq_some_iff {registry : EnumRegistry} {name : String} {values : List String} :
    registry.values? name = some values ↔
      ∃ map, registry.enums.get? name = some map ∧ map.keys = values :=
  Option.map_eq_some_iff

/-- The names are those under which there are values. -/
theorem mem_names_iff {registry : EnumRegistry} {name : String} :
    name ∈ registry.names ↔ ∃ values, registry.values? name = some values := by
  simp only [names, SortedMap.mem_keys_iff, values?_eq_some_iff]
  constructor
  · rintro ⟨map, hmap⟩
    exact ⟨map.keys, map, hmap, rfl⟩
  · rintro ⟨_, map, hmap, _⟩
    exact ⟨map, hmap⟩

theorem ascending_values {registry : EnumRegistry} {name : String} {values : List String}
    (h : registry.values? name = some values) : values.Pairwise (· < ·) := by
  obtain ⟨map, _, rfl⟩ := values?_eq_some_iff.mp h
  exact map.ascending_keys

theorem mem_values_iff_lists {registry : EnumRegistry} {name value : String}
    {values : List String} (h : registry.values? name = some values) :
    value ∈ values ↔ registry.Lists name value := by
  obtain ⟨map, hmap, rfl⟩ := values?_eq_some_iff.mp h
  simp [Lists, hmap]

/-- The declarations are those of the enums, each with its values. -/
theorem mem_typeDecls_iff {registry : EnumRegistry} {decl : TypeScript.TypeDecl} :
    decl ∈ registry.typeDecls ↔ ∃ name values, registry.values? name = some values ∧
      decl = ⟨name, .enumeration values, true⟩ := by
  rw [typeDecls, toList, List.map_map, List.mem_map]
  constructor
  · rintro ⟨⟨name, map⟩, hmem, rfl⟩
    have hmap := (lookup_eq_some_iff_mem registry.enums.nodup_keys).mpr hmem
    exact ⟨name, map.keys, values?_eq_some_iff.mpr ⟨map, hmap, rfl⟩, rfl⟩
  · rintro ⟨name, values, hvalues, rfl⟩
    obtain ⟨map, hmap, rfl⟩ := values?_eq_some_iff.mp hvalues
    have hmem := (lookup_eq_some_iff_mem registry.enums.nodup_keys).mp hmap
    exact ⟨(name, map), hmem, rfl⟩

theorem map_name_typeDecls (registry : EnumRegistry) :
    registry.typeDecls.map TypeScript.TypeDecl.name = registry.names := by
  simp [typeDecls, toList, names, SortedMap.keys, Function.comp_def]

end EnumRegistry

end SchemaWire
