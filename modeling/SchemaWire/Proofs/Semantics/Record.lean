import SchemaWire.Proofs.Index.Registration
import SchemaWire.Proofs.Semantics.Conformance

/-!
Records: the objects that the values of models are. Without repeated field names every field can be
read back from a record, and the mark of a variant of a union too. A record with a field under the
key of the prototype is not what any object literal denotes; the models without such a field make
up the plain part of an index.
-/
namespace SchemaWire

open TypeScript (Value)

variable {index next : TypeIndex} {form : Form} {dir : Direction} {desc : Descriptor}
  {path : ModelPath} {object : ObjectType} {fields : List ObjectField}

theorem nodup_keys_of_fields (hnames : (fields.map ObjectField.name).Nodup)
    (get : ObjectField → Value) :
    ((fields.map fun field => (field.name, get field)).map Prod.fst).Nodup := by
  rw [List.map_map]
  exact hnames

/-- The value of a field, read back from the record. -/
theorem lookup_sortEntries_fields (hnames : (fields.map ObjectField.name).Nodup)
    {field : ObjectField} (hmem : field ∈ fields) (get : ObjectField → Value) :
    (Value.sortEntries (fields.map fun field => (field.name, get field))).lookup field.name =
      some (get field) := by
  have hkeys := nodup_keys_of_fields hnames get
  rw [Value.lookup_sortEntries, lookup_reverse hkeys, lookup_eq_some_iff_mem hkeys]
  exact List.mem_map.mpr ⟨field, hmem, rfl⟩

theorem mem_keys_recordOf {entries : List (String × Value)} {get : ObjectField → Value}
    (h : recordOf fields get = .object entries) {name : String} :
    name ∈ entries.map Prod.fst ↔ name ∈ fields.map ObjectField.name := by
  cases Value.object.inj h
  rw [Value.mem_keys_sortEntries, List.map_map]
  rfl

theorem Conforms.eq_of_peel {value : Value} (h : Conforms index form desc value)
    {mark : LiteralValue} (hpeel : desc.peel = .literal mark) : value = .scalar mark.scalar := by
  induction h with
  | literal value =>
      cases hpeel
      rfl
  | annotated _ ih => exact ih hpeel
  | _ => cases hpeel

theorem Conforms.exists_object {value : Value} (h : Conforms index form (.model path) value) :
    ∃ object, index.object? path = some object := by
  cases h with
  | model hobject _ => exact ⟨_, hobject⟩

theorem Conforms.exists_recordOf {value : Value} (h : Conforms index form (.model path) value)
    (hobject : index.object? path = some object) :
    ∃ get, value = recordOf object.fields get ∧
      ∀ field ∈ object.fields, Conforms index form field.descriptor (get field) := by
  cases h with
  | @model _ declared get hdeclared hfields =>
      obtain rfl := Option.some.inj (hobject.symm.trans hdeclared)
      exact ⟨get, rfl, hfields⟩

/-- The mark of a variant, read back from a record. -/
theorem Conforms.lookup_of_marked {value : Value} (h : Conforms index form (.model path) value)
    (hobject : index.object? path = some object)
    (hnames : (object.fields.map ObjectField.name).Nodup) {field : String} {mark : LiteralValue}
    (hmarked : object.Marked field mark) :
    ∃ entries, value = .object entries ∧ entries.lookup field = some (.scalar mark.scalar) := by
  obtain ⟨get, rfl, hfields⟩ := h.exists_recordOf hobject
  obtain ⟨first, rest, hfirst, rfl, hpeel⟩ := hmarked
  have hmem : first ∈ object.fields := by
    rw [hfirst]
    exact List.mem_cons_self
  refine ⟨_, rfl, ?_⟩
  rw [lookup_sortEntries_fields hnames hmem, (hfields first hmem).eq_of_peel hpeel]

theorem Conforms.ne_null {value : Value} (h : Conforms index form (.model path) value) :
    value ≠ .null := by
  cases h
  simp [recordOf, Value.ofEntries, Value.null]

/-- The members of a union of scalars cross the wire unchanged. -/
theorem Descriptor.passthrough_of_safe
    (hsafe : (desc.isSafePrimitive || desc.isLiteral) = true) :
    desc.WellFormed ∧ desc.isPassthrough = true := by
  fun_induction peel desc with
  | case1 inner attachments ih => exact ih hsafe
  | case2 desc hnot =>
      cases desc with
      | primitive kind =>
          have hkind : kind.isSafe = true := by simpa [isSafePrimitive, isLiteral, peel] using hsafe
          exact ⟨trivial, by simp [isPassthrough, peel, hkind]⟩
      | literal value => exact ⟨trivial, rfl⟩
      | annotated inner attachments => exact absurd rfl (hnot inner attachments)
      | _ => cases hsafe

theorem Descriptor.isPassthrough_of_peel {mark : LiteralValue}
    (h : desc.peel = .literal mark) : desc.isPassthrough = true := by
  rw [isPassthrough, h]

/-- Values that cross the wire unchanged correspond only to themselves. -/
theorem Corresponds.eq_of_isPassthrough {source target : Value}
    (h : Corresponds index dir desc source target) (hwell : desc.WellFormed)
    (hpass : desc.isPassthrough = true) : source = target := by
  induction h with
  | scalar _ => rfl
  | literal _ => rfl
  | annotated _ ih => exact ih hwell hpass
  | member hmem _ ih =>
      obtain ⟨hmember, hkept⟩ := Descriptor.passthrough_of_safe (hwell.2 _ hmem)
      exact ih hmember hkept
  | noMember _ => rfl
  | _ => cases hpass

theorem Conforms.mono (hextends : index.Extends next) {value : Value}
    (h : Conforms index form desc value) : Conforms next form desc value := by
  induction h with
  | scalar hadmits => exact .scalar hadmits
  | instant htime => exact .instant htime
  | literal value => exact .literal value
  | absent inner => exact .absent inner
  | present _ ih => exact .present ih
  | list _ ih => exact .list ih
  | mapping hascending _ ih => exact .mapping hascending ih
  | annotated _ ih => exact .annotated ih
  | model hobject _ ih => exact .model (hextends _ _ hobject) ih
  | variant hmem _ ih => exact .variant hmem ih
  | noVariant variants => exact .noVariant variants
  | member hmem _ ih => exact .member hmem ih
  | noMember variants => exact .noMember variants

namespace TypeIndex

/-- The part of the index without the models that have a field under the key of the prototype. -/
def plain (index : TypeIndex) : TypeIndex :=
  { index with objects := index.objects.filter fun entry =>
      Value.prototypeKey ∉ entry.2.fields.map ObjectField.name }

theorem Sound.object?_plain_eq_some_iff (h : index.Sound) :
    index.plain.object? path = some object ↔ index.object? path = some object ∧
      Value.prototypeKey ∉ object.fields.map ObjectField.name := by
  have hpaths : index.plain.paths.Nodup := h.nodup.sublist (List.filter_sublist.map _)
  rw [object?, lookup_eq_some_iff_mem hpaths, plain, List.mem_filter, h.object?_eq_some_iff]
  simp

theorem Sound.extends_plain (h : index.Sound) : index.plain.Extends index :=
  fun _ _ hobject => (h.object?_plain_eq_some_iff.mp hobject).1

end TypeIndex

end SchemaWire
