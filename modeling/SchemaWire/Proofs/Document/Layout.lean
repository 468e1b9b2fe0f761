import SchemaWire.Document.OfJson

/-!
Changes to the layout of a document. Each value in a document has a place, which says what it is
read as. A change permutes the members of one object, or adds a member that is not known at its
place; only the document itself does not allow it. What does not depend on the places at all is
shown here: a change keeps arrays arrays and objects objects, and whether the value is whole.
-/
namespace SchemaWire

/-- What a value in a document is read as. Elsewhere there are no records, and no types. -/
inductive Place where
  | document
  | models
  | model
  | fieldList
  | field
  | routeList
  | route
  | typeExpr
  | typeList
  | annotated
  | attachmentList
  | attachment
  | enumTag
  | elsewhere
deriving DecidableEq, Repr

namespace Place

/-- The fields of a record in order, each with what its value is read as. -/
def fields : Place → List (String × Place)
  | document => [("models", models), ("roots", elsewhere), ("routes", routeList)]
  | model => [("fields", fieldList)]
  | field => [("name", elsewhere), ("type", typeExpr), ("default", elsewhere)]
  | route => [("handler", elsewhere), ("ts_name", elsewhere), ("method", elsewhere),
      ("path", elsewhere), ("match_info", elsewhere), ("body", elsewhere),
      ("response", elsewhere)]
  | annotated => [("type", typeExpr), ("meta", attachmentList)]
  | enumTag => [("name", elsewhere), ("values", elsewhere)]
  | _ => []

def names (place : Place) : List String :=
  place.fields.map Prod.fst

/-- Whether a record ignores other fields. -/
def isOpen : Place → Bool
  | model | field | route | annotated | enumTag => true
  | _ => false

def member (place : Place) (name : String) : Place :=
  match place with
  | models => model
  | typeExpr =>
      match Compound.ofKey? (.text name) with
      | some .list | some .optional => typeExpr
      | some .dict | some .union => typeList
      | some .annotated => annotated
      | _ => elsewhere
  | attachment =>
      match Content.keyPosition? ["enum", "note"] (.text name) with
      | some (some 0) => enumTag
      | _ => elsewhere
  | record => (record.fields.lookup name).getD elsewhere

/-- What an item is read as. A record may be an array of its fields. -/
def item (place : Place) (position : Nat) : Place :=
  match place with
  | fieldList => field
  | routeList => route
  | typeList => typeExpr
  | attachmentList => attachment
  | record => (record.fields[position]?.map Prod.snd).getD elsewhere

end Place

namespace Json

/-- A change to the layout of a value at a place: the members of one object in it, which has no
repeated key, come in another order, or an object that ignores other fields gets one more. -/
inductive Relaid : Place → Json → Json → Prop where
  | reordered {place : Place} {members others : List (String × Json)}
      (hdistinct : (members.map Prod.fst).Nodup) (hperm : members.Perm others) :
      Relaid place (.object members) (.object others)
  | extended {place : Place} (before after : List (String × Json)) {name : String} {value : Json}
      (hopen : place.isOpen = true) (hname : name ∉ place.names)
      (hwhole : value.content?.isSome = true) :
      Relaid place (.object (before ++ after)) (.object (before ++ (name, value) :: after))
  | member {place : Place} (before after : List (String × Json)) (name : String)
      {value other : Json} (h : Relaid (place.member name) value other) :
      Relaid place (.object (before ++ (name, value) :: after))
        (.object (before ++ (name, other) :: after))
  | item {place : Place} (before after : List Json) {value other : Json}
      (h : Relaid (place.item before.length) value other) :
      Relaid place (.array (before ++ value :: after)) (.array (before ++ other :: after))

/-- Both values are arrays, or both are objects. -/
inductive SameShape : Json → Json → Prop where
  | array (items others : List Json) : SameShape (.array items) (.array others)
  | object (members others : List (String × Json)) : SameShape (.object members) (.object others)

variable {place : Place} {value other : Json}

theorem Relaid.sameShape (h : Relaid place value other) : SameShape value other := by
  cases h with
  | reordered _ _ => exact .object _ _
  | extended _ _ _ _ _ => exact .object _ _
  | member _ _ _ _ => exact .object _ _
  | item _ _ _ => exact .array _ _

/-- A test of all parts of a value, which whole values pass, gives the same before and after. -/
theorem Relaid.test_eq {test : Json → Bool} (h : Relaid place value other)
    (harray : ∀ items, test (.array items) = items.all test)
    (hobject : ∀ members, test (.object members) = members.all fun member => test member.2)
    (hwhole : ∀ value : Json, value.content?.isSome = true → test value = true) :
    test value = test other := by
  induction h with
  | reordered _ hperm => rw [hobject, hobject, hperm.all_eq]
  | extended before after _ _ hvalue => simp [hobject, hwhole _ hvalue]
  | member before after name _ ih => simp [hobject, ih]
  | item before after _ ih => simp [harray, ih]

theorem isSome_contents? (items : List Json) :
    (contents? items).isSome = items.all fun item => item.content?.isSome := by
  induction items with
  | nil => rfl
  | cons item rest ih =>
      rw [contents?, List.all_cons, ← ih]
      cases item.content? <;> cases contents? rest <;> rfl

theorem isSome_memberContents? (members : List (String × Json)) :
    (memberContents? members).isSome = members.all fun member => member.2.content?.isSome := by
  induction members with
  | nil => rfl
  | cons member rest ih =>
      rw [memberContents?, List.all_cons, ← ih]
      cases member.2.content? <;> cases memberContents? rest <;> rfl

theorem areSkippable_eq (items : List Json) : areSkippable items = items.all isSkippable := by
  induction items with
  | nil => rfl
  | cons item rest ih => rw [areSkippable, List.all_cons, ih]

theorem haveSkippable_eq (members : List (String × Json)) :
    haveSkippable members = members.all fun member => member.2.isSkippable := by
  induction members with
  | nil => rfl
  | cons member rest ih => rw [haveSkippable, List.all_cons, ih]

mutual
/-- A whole value can be skipped. -/
theorem isSkippable_of_whole : (value : Json) → value.content?.isSome = true →
    value.isSkippable = true
  | .array items, h => by
      rw [content?, Option.isSome_map] at h
      exact areSkippable_of_whole items h
  | .object members, h => by
      rw [content?, Option.isSome_map] at h
      exact haveSkippable_of_whole members h
  | .null, _ | .bool _, _ | .int _, _ | .float _, _ | .string _, _ => rfl

theorem areSkippable_of_whole : (items : List Json) → (contents? items).isSome = true →
    areSkippable items = true
  | [], _ => rfl
  | item :: rest, h => by
      rw [isSome_contents?, List.all_cons, Bool.and_eq_true, ← isSome_contents?] at h
      rw [areSkippable, isSkippable_of_whole item h.1, areSkippable_of_whole rest h.2]
      rfl

theorem haveSkippable_of_whole : (members : List (String × Json)) →
    (memberContents? members).isSome = true → haveSkippable members = true
  | [], _ => rfl
  | (_, value) :: rest, h => by
      rw [isSome_memberContents?, List.all_cons, Bool.and_eq_true, ← isSome_memberContents?] at h
      rw [haveSkippable, isSkippable_of_whole value h.1, haveSkippable_of_whole rest h.2]
      rfl
end

theorem Relaid.isSkippable_eq (h : Relaid place value other) :
    value.isSkippable = other.isSkippable :=
  h.test_eq areSkippable_eq haveSkippable_eq isSkippable_of_whole

theorem Relaid.isSome_content?_eq (h : Relaid place value other) :
    value.content?.isSome = other.content?.isSome := by
  refine @Relaid.test_eq _ _ _ (fun value => value.content?.isSome) h ?_ ?_ fun _ hwhole => hwhole
  · exact fun items => (Option.isSome_map ..).trans (isSome_contents? items)
  · exact fun members => (Option.isSome_map ..).trans (isSome_memberContents? members)

end Json

end SchemaWire
