import SchemaWire.Proofs.Entries
import SchemaWire.Proofs.Result
import SchemaWire.SortedMap
import SchemaWire.TypeScript.Syntax

/-!
Values that generated code works on. Numbers are exact and dates are whole milliseconds. The
properties of an object have no order, so an object lists them in ascending order of their names;
two objects with the same properties are the same value.
-/
namespace SchemaWire

namespace SortedMap

theorem insertEntry_of_forall_lt {α : Type} {key : String} {value : α}
    {entries : List (String × α)} (h : ∀ entry ∈ entries, entry.1 < key) :
    insertEntry key value entries = entries ++ [(key, value)] := by
  induction entries with
  | nil => rfl
  | cons head rest ih =>
      have hhead := h head List.mem_cons_self
      have hle : ¬ key < head.1 := String.lt_asymm hhead
      have hne : key ≠ head.1 := by
        rintro rfl
        exact String.lt_irrefl _ hhead
      rw [insertEntry, if_neg hle, if_neg hne, ih fun entry hentry =>
        h entry (List.mem_cons_of_mem _ hentry)]
      rfl

end SortedMap

namespace TypeScript

/-- Values without parts. -/
inductive Scalar where
  | undefined
  | null
  | bool (value : Bool)
  | number (value : Rat)
  | string (text : String)
deriving DecidableEq, Repr

/-- A value. A derived object has a prototype of its own in the place of the built-in one. -/
inductive Value where
  | scalar (value : Scalar)
  | date (time : Int)
  | list (items : List Value)
  | object (entries : List (String × Value))
  | derived (prototype : Value) (entries : List (String × Value))
deriving Repr

/-- Why an evaluation gives no value. `unmodelled` stands for everything that the generated
conversions never do. -/
inductive Fault where
  | unreachable
  | typeError
  | depth
  | unmodelled
deriving DecidableEq, Repr

/-- The scalar that a literal denotes, integers being exact. -/
def Literal.scalar : Literal → Scalar
  | .string text => .string text
  | .int value => .number value.toInt
  | .bool value => .bool value
  | .null => .null

def Scalar.isTrue : Scalar → Bool
  | undefined | null => false
  | bool value => value
  | number value => value ≠ 0
  | string text => text ≠ ""

namespace Value

/-- The value that stands for absence. -/
def null : Value :=
  scalar .null

instance : Inhabited Value := ⟨null⟩

def isTrue : Value → Bool
  | scalar value => value.isTrue
  | _ => true

/-- Strict equality. Values with parts are compared by identity, which a value does not have. -/
def strictEqual : Value → Value → Except Fault Bool
  | scalar a, scalar b => .ok (a = b)
  | scalar _, _ | _, scalar _ => .ok false
  | _, _ => .error .unmodelled

/-- The entries in ascending order of their keys; of those with the same key the last one counts. -/
def sortEntries (entries : List (String × Value)) : List (String × Value) :=
  entries.foldl (fun known entry => SortedMap.insertEntry entry.1 entry.2 known) []

def ofEntries (entries : List (String × Value)) : Value :=
  object (sortEntries entries)

/-- The key under which an object literal holds the prototype and not a property. -/
def prototypeKey : String :=
  "__proto__"

/-- The object that an object literal denotes. Under the key of the prototype an object or `null`
becomes the prototype, and any other value has no effect. -/
def ofLiteral (entries : List (String × Value)) : Value :=
  let own := entries.filter fun entry => entry.1 ≠ prototypeKey
  match entries.lookup prototypeKey with
  | none => ofEntries own
  | some (scalar .null) => derived null (sortEntries own)
  | some (scalar _) => ofEntries own
  | some prototype => derived prototype (sortEntries own)

/-- The properties that every object inherits from the built-in prototype. -/
def inheritedProperties : List String := [
  "__defineGetter__", "__defineSetter__", "__lookupGetter__", "__lookupSetter__", "__proto__",
  "constructor", "hasOwnProperty", "isPrototypeOf", "propertyIsEnumerable", "toLocaleString",
  "toString", "valueOf"]

/-- A property of an object; one that the object does not have is `undefined`. -/
def property (entries : List (String × Value)) (name : String) : Except Fault Value :=
  match entries.lookup name with
  | some value => .ok value
  | none =>
      if name ∈ inheritedProperties then .error .unmodelled else .ok (scalar .undefined)

def ofEntry (entry : String × Value) : Value :=
  list [scalar (.string entry.1), entry.2]

/-- The entries of an object as a list of pairs. -/
def entryList : Value → Except Fault Value
  | object entries | derived _ entries => .ok (list (entries.map ofEntry))
  | scalar .undefined | scalar .null => .error .typeError
  | _ => .error .unmodelled

def toEntry : Value → Except Fault (String × Value)
  | list [scalar (.string key), value] => .ok (key, value)
  | _ => .error .unmodelled

def ofEntryList : Value → Except Fault Value
  | list items => ofEntries <$> items.mapM toEntry
  | _ => .error .unmodelled

/-- The furthest instant from the start of 1970 that a date can hold. -/
def maxTime : Rat :=
  8640000000000000

/-- The date of a number of milliseconds, of which the fraction is dropped. -/
def ofTime (time : Rat) : Except Fault Value :=
  if -maxTime ≤ time ∧ time ≤ maxTime then .ok (date (time.num.tdiv time.den))
  else .error .unmodelled

def operate : BinaryOp → Value → Value → Except Fault Value
  | .strictEqual, a, b => (fun same => scalar (.bool same)) <$> a.strictEqual b
  | .times, scalar (.number a), scalar (.number b) => .ok (scalar (.number (a * b)))
  | .divide, scalar (.number a), scalar (.number b) =>
      if b = 0 then .error .unmodelled else .ok (scalar (.number (a / b)))
  | _, _, _ => .error .unmodelled

variable {entries : List (String × Value)}

/-- Inserting the entries one by one, each lookup finds the last entry of its key. -/
theorem lookup_foldl_insertEntry (known : List (String × Value)) (name : String) :
    (entries.foldl (fun known entry => SortedMap.insertEntry entry.1 entry.2 known) known).lookup
        name = (entries.reverse ++ known).lookup name := by
  induction entries generalizing known with
  | nil => rfl
  | cons entry rest ih =>
      rw [List.foldl_cons, ih, List.reverse_cons, List.append_assoc, List.lookup_append,
        List.lookup_append]
      congr 1
      by_cases hname : name = entry.1
      · rw [hname, SortedMap.lookup_insertEntry_self]
        exact List.lookup_cons_self.symm
      · rw [SortedMap.lookup_insertEntry_of_ne hname, List.cons_append, List.nil_append,
          SortedMap.lookup_cons_of_ne hname]

theorem lookup_sortEntries (entries : List (String × Value)) (name : String) :
    (sortEntries entries).lookup name = entries.reverse.lookup name := by
  rw [sortEntries, lookup_foldl_insertEntry, List.append_nil]

theorem mem_keys_sortEntries {name : String} :
    name ∈ (sortEntries entries).map Prod.fst ↔ name ∈ entries.map Prod.fst := by
  rw [← exists_lookup_iff_mem_keys, lookup_sortEntries, exists_lookup_iff_mem_keys,
    List.map_reverse, List.mem_reverse]

theorem ascending_sortEntries (entries : List (String × Value)) :
    (sortEntries entries).Pairwise fun a b => a.1 < b.1 := by
  rw [sortEntries, ← List.foldr_reverse]
  induction entries.reverse with
  | nil => exact .nil
  | cons entry rest ih => exact SortedMap.ascending_insertEntry _ _ ih

theorem nodup_keys_of_ascending (h : entries.Pairwise fun a b => a.1 < b.1) :
    (entries.map Prod.fst).Nodup := by
  refine List.pairwise_map.mpr (h.imp fun {a b} hlt heq => ?_)
  rw [heq] at hlt
  exact String.lt_irrefl _ hlt

theorem mem_of_mem_sortEntries {entry : String × Value} (h : entry ∈ sortEntries entries) :
    entry ∈ entries := by
  have hnodup := nodup_keys_of_ascending (ascending_sortEntries entries)
  have hlookup := (lookup_eq_some_iff_mem hnodup).mpr h
  rw [lookup_sortEntries, List.lookup_eq_some_iff] at hlookup
  obtain ⟨before, after, heq, _⟩ := hlookup
  rw [← List.mem_reverse, heq]
  simp

theorem foldl_insertEntry_of_ascending {known : List (String × Value)}
    (h : (known ++ entries).Pairwise fun a b => a.1 < b.1) :
    entries.foldl (fun known entry => SortedMap.insertEntry entry.1 entry.2 known) known =
      known ++ entries := by
  induction entries generalizing known with
  | nil => simp
  | cons entry rest ih =>
      have hbefore : ∀ other ∈ known, other.1 < entry.1 := fun other hother =>
        (List.pairwise_append.mp h).2.2 other hother entry List.mem_cons_self
      have hmoved : ((known ++ [(entry.1, entry.2)]) ++ rest).Pairwise fun a b => a.1 < b.1 := by
        rw [List.append_assoc]
        exact h
      rw [List.foldl_cons, SortedMap.insertEntry_of_forall_lt hbefore, ih hmoved, List.append_assoc]
      rfl

/-- Entries in ascending order stay as they are. -/
theorem sortEntries_of_ascending (h : entries.Pairwise fun a b => a.1 < b.1) :
    sortEntries entries = entries :=
  foldl_insertEntry_of_ascending h

theorem strictEqual_scalar_eq_ok_iff {value : Value} {constant : Scalar} {same : Bool} :
    value.strictEqual (scalar constant) = .ok same ↔ (same = true ↔ value = scalar constant) := by
  cases value with
  | scalar found =>
      by_cases heq : found = constant <;> cases same <;> simp [strictEqual, heq]
  | _ => cases same <;> simp [strictEqual]

theorem toEntry_eq_ok_iff {value : Value} {entry : String × Value} :
    value.toEntry = .ok entry ↔ value = ofEntry entry := by
  constructor
  · intro h
    unfold toEntry at h
    split at h
    · cases h
      rfl
    · cases h
  · rintro rfl
    rfl

theorem ofEntryList_eq_ok_iff {value result : Value} :
    value.ofEntryList = .ok result ↔
      ∃ entries, value = list (entries.map ofEntry) ∧ result = ofEntries entries := by
  cases value with
  | list items =>
      rw [ofEntryList, map_eq_ok_iff]
      simp only [mapM_eq_ok_iff, toEntry_eq_ok_iff, ← List.forall₂_map_right_iff (f := ofEntry),
        List.forall₂_eq_eq_eq, list.injEq, @eq_comm _ result]
  | _ => simp [ofEntryList]

theorem property_of_lookup {name : String} {value : Value}
    (h : entries.lookup name = some value) : property entries name = .ok value := by
  rw [property, h]

theorem ofLiteral_of_not_mem (h : prototypeKey ∉ entries.map Prod.fst) :
    ofLiteral entries = ofEntries entries := by
  have hown : entries.filter (fun entry => entry.1 ≠ prototypeKey) = entries := by
    refine List.filter_eq_self.mpr fun entry hentry => ?_
    have hne : entry.1 ≠ prototypeKey := fun heq => h (List.mem_map.mpr ⟨entry, hentry, heq⟩)
    simpa using hne
  have hnone : entries.lookup prototypeKey = none := by
    rw [← Option.not_isSome_iff_eq_none, Option.isSome_iff_exists, exists_lookup_iff_mem_keys]
    exact h
  rw [ofLiteral, hnone, hown]

/-- Where an object literal denotes an object without a prototype of its own, the entry under the
key of the prototype is lost. -/
theorem ofLiteral_eq_object {own : List (String × Value)} (h : ofLiteral entries = object own) :
    own = sortEntries (entries.filter fun entry => entry.1 ≠ prototypeKey) := by
  unfold ofLiteral at h
  split at h <;> cases h <;> rfl

theorem prototypeKey_not_mem_of_ofLiteral {own : List (String × Value)}
    (h : ofLiteral entries = object own) : prototypeKey ∉ own.map Prod.fst := by
  rw [ofLiteral_eq_object h, mem_keys_sortEntries, List.mem_map]
  rintro ⟨entry, hentry, heq⟩
  simp [heq] at hentry

theorem lookup_of_ofLiteral {own : List (String × Value)} (h : ofLiteral entries = object own)
    (hnodup : (entries.map Prod.fst).Nodup) {name : String} {value : Value}
    (hname : name ≠ prototypeKey) (hmem : (name, value) ∈ entries) :
    own.lookup name = some value := by
  have hkept : (name, value) ∈ entries.filter fun entry => entry.1 ≠ prototypeKey :=
    List.mem_filter.mpr ⟨hmem, by simpa using hname⟩
  have hkeys : ((entries.filter fun entry => entry.1 ≠ prototypeKey).map Prod.fst).Nodup :=
    hnodup.sublist (List.filter_sublist.map _)
  rw [ofLiteral_eq_object h, lookup_sortEntries, lookup_reverse hkeys]
  exact (lookup_eq_some_iff_mem hkeys).mpr hkept

end Value

end TypeScript

end SchemaWire
