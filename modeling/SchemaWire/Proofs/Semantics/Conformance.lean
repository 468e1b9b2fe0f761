import Mathlib.Tactic.Choose
import SchemaWire.Index.Basic
import SchemaWire.Proofs.Semantics.Value

/-!
Which values a descriptor has. A value has a wire form and a rich form, which differ only in their
instants: seconds on the wire, dates in generated code. An object of a model has exactly the fields
of the model, with `null` for an optional one that is absent. Main statements: every value of one
form corresponds to a value of the other form.
-/
namespace SchemaWire

open TypeScript (Scalar Value)

/-- The two forms of a value. -/
inductive Form where
  | wire
  | rich
deriving DecidableEq, Repr

namespace Direction

def source : Direction → Form
  | fromWire => .wire
  | toWire => .rich

def target : Direction → Form
  | fromWire => .rich
  | toWire => .wire

/-- The way back. -/
def opposite : Direction → Direction
  | fromWire => toWire
  | toWire => fromWire

@[simp]
theorem source_opposite (dir : Direction) : dir.opposite.source = dir.target := by
  cases dir <;> rfl

@[simp]
theorem target_opposite (dir : Direction) : dir.opposite.target = dir.source := by
  cases dir <;> rfl

end Direction

/-- Whether a date can hold an instant. -/
def IsInstant (time : Int) : Prop :=
  -Value.maxTime ≤ time ∧ (time : Rat) ≤ Value.maxTime

/-- An instant, given in milliseconds: a number of seconds or a date. -/
def Form.instant : Form → Int → Value
  | wire, time => .scalar (.number (time / 1000))
  | rich, time => .date time

/-- The scalar that a literal type has as its only value. -/
def LiteralValue.scalar : LiteralValue → Scalar
  | bool value => .bool value
  | int value => .number value.toInt
  | str text => .string text
  | null => .null

/-- Whether a built-in type has the scalar as a value. Dates are no scalars. -/
def PrimitiveKind.admits : PrimitiveKind → Scalar → Bool
  | str, .string _ | url, .string _ => true
  | int, .number value => value.isInt
  | float, .number _ => true
  | bool, .bool _ => true
  | absence, .null => true
  | _, _ => false

/-- The object that has a value for each of the fields. -/
def recordOf (fields : List ObjectField) (get : ObjectField → Value) : Value :=
  .ofEntries (fields.map fun field => (field.name, get field))

/-- The values of a descriptor in a form. -/
inductive Conforms (index : TypeIndex) (form : Form) : Descriptor → Value → Prop where
  | scalar {kind : PrimitiveKind} {value : Scalar} (hadmits : kind.admits value = true) :
      Conforms index form (.primitive kind) (.scalar value)
  | instant {time : Int} (htime : IsInstant time) :
      Conforms index form (.primitive .datetime) (form.instant time)
  | literal (value : LiteralValue) : Conforms index form (.literal value) (.scalar value.scalar)
  | absent (inner : Descriptor) : Conforms index form (.optional inner) .null
  | present {inner : Descriptor} {value : Value} (hinner : Conforms index form inner value) :
      Conforms index form (.optional inner) value
  | list {element : Descriptor} {items : List Value}
      (hitems : ∀ item ∈ items, Conforms index form element item) :
      Conforms index form (.list element) (.list items)
  | mapping {key value : Descriptor} {entries : List (String × Value)}
      (hascending : entries.Pairwise fun a b => a.1 < b.1)
      (hentries : ∀ entry ∈ entries, Conforms index form value entry.2) :
      Conforms index form (.mapping key value) (.object entries)
  | annotated {inner : Descriptor} {attachments : List Attachment} {value : Value}
      (hinner : Conforms index form inner value) :
      Conforms index form (.annotated inner attachments) value
  | model {path : ModelPath} {object : ObjectType} {get : ObjectField → Value}
      (hobject : index.object? path = some object)
      (hfields : ∀ field ∈ object.fields, Conforms index form field.descriptor (get field)) :
      Conforms index form (.model path) (recordOf object.fields get)
  | variant {variants : List ModelPath} {nullable : Bool} {path : ModelPath} {value : Value}
      (hmem : path ∈ variants) (hmodel : Conforms index form (.model path) value) :
      Conforms index form (.unionOfModels variants nullable) value
  | noVariant (variants : List ModelPath) :
      Conforms index form (.unionOfModels variants true) .null
  | member {variants : List Descriptor} {nullable : Bool} {desc : Descriptor} {value : Value}
      (hmem : desc ∈ variants) (hvalue : Conforms index form desc value) :
      Conforms index form (.unionOfScalars variants nullable) value
  | noMember (variants : List Descriptor) :
      Conforms index form (.unionOfScalars variants true) .null

/-- The source form and the target form of one value. -/
inductive Corresponds (index : TypeIndex) (dir : Direction) :
    Descriptor → Value → Value → Prop where
  | scalar {kind : PrimitiveKind} {value : Scalar} (hadmits : kind.admits value = true) :
      Corresponds index dir (.primitive kind) (.scalar value) (.scalar value)
  | instant {time : Int} (htime : IsInstant time) :
      Corresponds index dir (.primitive .datetime) (dir.source.instant time)
        (dir.target.instant time)
  | literal (value : LiteralValue) :
      Corresponds index dir (.literal value) (.scalar value.scalar) (.scalar value.scalar)
  | absent (inner : Descriptor) : Corresponds index dir (.optional inner) .null .null
  | present {inner : Descriptor} {source target : Value}
      (hinner : Corresponds index dir inner source target) :
      Corresponds index dir (.optional inner) source target
  | list {element : Descriptor} {pairs : List (Value × Value)}
      (hpairs : ∀ pair ∈ pairs, Corresponds index dir element pair.1 pair.2) :
      Corresponds index dir (.list element) (.list (pairs.map Prod.fst))
        (.list (pairs.map Prod.snd))
  | mapping {key value : Descriptor} {entries : List (String × Value × Value)}
      (hascending : entries.Pairwise fun a b => a.1 < b.1)
      (hentries : ∀ entry ∈ entries, Corresponds index dir value entry.2.1 entry.2.2) :
      Corresponds index dir (.mapping key value)
        (.object (entries.map fun entry => (entry.1, entry.2.1)))
        (.object (entries.map fun entry => (entry.1, entry.2.2)))
  | annotated {inner : Descriptor} {attachments : List Attachment} {source target : Value}
      (hinner : Corresponds index dir inner source target) :
      Corresponds index dir (.annotated inner attachments) source target
  | model {path : ModelPath} {object : ObjectType} {source target : ObjectField → Value}
      (hobject : index.object? path = some object)
      (hfields : ∀ field ∈ object.fields,
        Corresponds index dir field.descriptor (source field) (target field)) :
      Corresponds index dir (.model path) (recordOf object.fields source)
        (recordOf object.fields target)
  | variant {variants : List ModelPath} {nullable : Bool} {path : ModelPath}
      {source target : Value} (hmem : path ∈ variants)
      (hmodel : Corresponds index dir (.model path) source target) :
      Corresponds index dir (.unionOfModels variants nullable) source target
  | noVariant (variants : List ModelPath) :
      Corresponds index dir (.unionOfModels variants true) .null .null
  | member {variants : List Descriptor} {nullable : Bool} {desc : Descriptor}
      {source target : Value} (hmem : desc ∈ variants)
      (hvalue : Corresponds index dir desc source target) :
      Corresponds index dir (.unionOfScalars variants nullable) source target
  | noMember (variants : List Descriptor) :
      Corresponds index dir (.unionOfScalars variants true) .null .null

variable {index : TypeIndex} {dir : Direction} {desc : Descriptor} {source target : Value}

/-- Every value of the source form has a target form. -/
theorem Conforms.exists_corresponds (h : Conforms index dir.source desc source) :
    ∃ target, Corresponds index dir desc source target := by
  induction h with
  | scalar hadmits => exact ⟨_, .scalar hadmits⟩
  | instant htime => exact ⟨_, .instant htime⟩
  | literal value => exact ⟨_, .literal value⟩
  | absent inner => exact ⟨_, .absent inner⟩
  | present _ ih =>
      obtain ⟨target, htarget⟩ := ih
      exact ⟨target, .present htarget⟩
  | @list element items _ ih =>
      choose! partner hpartner using ih
      have hpairs : ∀ pair ∈ items.map fun item => (item, partner item),
          Corresponds index dir element pair.1 pair.2 := by
        intro pair hpair
        obtain ⟨item, hitem, rfl⟩ := List.mem_map.mp hpair
        exact hpartner item hitem
      have hlist := Corresponds.list hpairs
      have hfirst : (items.map fun item => (item, partner item)).map Prod.fst = items := by
        simp [Function.comp_def]
      rw [hfirst] at hlist
      exact ⟨_, hlist⟩
  | @mapping key value entries hascending _ ih =>
      choose! partner hpartner using ih
      have hpairs : ∀ entry ∈ entries.map fun entry => (entry.1, entry.2, partner entry),
          Corresponds index dir value entry.2.1 entry.2.2 := by
        intro entry hentry
        obtain ⟨origin, horigin, rfl⟩ := List.mem_map.mp hentry
        exact hpartner origin horigin
      have hsorted : (entries.map fun entry => (entry.1, entry.2, partner entry)).Pairwise
          fun a b => a.1 < b.1 := List.pairwise_map.mpr hascending
      have hmapping := @Corresponds.mapping _ _ key _ _ hsorted hpairs
      have hfirst : (entries.map fun entry => (entry.1, entry.2, partner entry)).map
          (fun entry => (entry.1, entry.2.1)) = entries := by
        simp [Function.comp_def]
      rw [hfirst] at hmapping
      exact ⟨_, hmapping⟩
  | annotated _ ih =>
      obtain ⟨target, htarget⟩ := ih
      exact ⟨target, .annotated htarget⟩
  | @model path object get hobject _ ih =>
      choose! partner hpartner using ih
      exact ⟨_, .model hobject hpartner⟩
  | variant hmem _ ih =>
      obtain ⟨target, htarget⟩ := ih
      exact ⟨target, .variant hmem htarget⟩
  | noVariant variants => exact ⟨_, .noVariant variants⟩
  | member hmem _ ih =>
      obtain ⟨target, htarget⟩ := ih
      exact ⟨target, .member hmem htarget⟩
  | noMember variants => exact ⟨_, .noMember variants⟩

/-- Read backwards, a correspondence belongs to the way back. -/
theorem Corresponds.flip (h : Corresponds index dir desc source target) :
    Corresponds index dir.opposite desc target source := by
  induction h with
  | scalar hadmits => exact .scalar hadmits
  | @instant time htime =>
      have hinstant := @Corresponds.instant index dir.opposite time htime
      rw [Direction.source_opposite, Direction.target_opposite] at hinstant
      exact hinstant
  | literal value => exact .literal value
  | absent inner => exact .absent inner
  | present _ ih => exact .present ih
  | @list element pairs _ ih =>
      have hswapped : ∀ pair ∈ pairs.map Prod.swap,
          Corresponds index dir.opposite element pair.1 pair.2 := by
        intro pair hpair
        obtain ⟨origin, horigin, rfl⟩ := List.mem_map.mp hpair
        exact ih origin horigin
      have hlist := Corresponds.list hswapped
      rw [List.map_map, List.map_map] at hlist
      exact hlist
  | @mapping key value entries hascending _ ih =>
      have hswapped : ∀ entry ∈ entries.map fun entry => (entry.1, entry.2.swap),
          Corresponds index dir.opposite value entry.2.1 entry.2.2 := by
        intro entry hentry
        obtain ⟨origin, horigin, rfl⟩ := List.mem_map.mp hentry
        exact ih origin horigin
      have hsorted : (entries.map fun entry => (entry.1, entry.2.swap)).Pairwise
          fun a b => a.1 < b.1 := List.pairwise_map.mpr hascending
      have hmapping := @Corresponds.mapping _ _ key _ _ hsorted hswapped
      rw [List.map_map, List.map_map] at hmapping
      exact hmapping
  | annotated _ ih => exact .annotated ih
  | model hobject _ ih => exact .model hobject ih
  | variant hmem _ ih => exact .variant hmem ih
  | noVariant variants => exact .noVariant variants
  | member hmem _ ih => exact .member hmem ih
  | noMember variants => exact .noMember variants

theorem Corresponds.conforms_source (h : Corresponds index dir desc source target) :
    Conforms index dir.source desc source := by
  induction h with
  | scalar hadmits => exact .scalar hadmits
  | instant htime => exact .instant htime
  | literal value => exact .literal value
  | absent inner => exact .absent inner
  | present _ ih => exact .present ih
  | @list element pairs _ ih =>
      refine .list fun item hitem => ?_
      obtain ⟨pair, hpair, rfl⟩ := List.mem_map.mp hitem
      exact ih pair hpair
  | @mapping key value entries hascending _ ih =>
      refine .mapping (List.pairwise_map.mpr hascending) fun entry hentry => ?_
      obtain ⟨origin, horigin, rfl⟩ := List.mem_map.mp hentry
      exact ih origin horigin
  | annotated _ ih => exact .annotated ih
  | model hobject _ ih => exact .model hobject ih
  | variant hmem _ ih => exact .variant hmem ih
  | noVariant variants => exact .noVariant variants
  | member hmem _ ih => exact .member hmem ih
  | noMember variants => exact .noMember variants

theorem Corresponds.conforms_target (h : Corresponds index dir desc source target) :
    Conforms index dir.target desc target := by
  have hflip := h.flip.conforms_source
  rwa [Direction.source_opposite] at hflip

/-- Only the absent value corresponds to the absent value. -/
theorem Corresponds.null_iff (h : Corresponds index dir desc source target) :
    source = .null ↔ target = .null := by
  induction h with
  | scalar _ => rfl
  | instant _ => cases dir <;> simp [Direction.source, Direction.target, Form.instant, Value.null]
  | literal _ => rfl
  | absent _ => rfl
  | present _ ih => exact ih
  | list _ _ => simp [Value.null]
  | mapping _ _ _ => simp [Value.null]
  | annotated _ ih => exact ih
  | model _ _ _ => simp [recordOf, Value.ofEntries, Value.null]
  | variant _ _ ih => exact ih
  | noVariant _ => rfl
  | member _ _ ih => exact ih
  | noMember _ => rfl

end SchemaWire
