import SchemaWire.Document.Record
import SchemaWire.Proofs.Result

/-!
Records as they are written in JSON. A row gives the value of each field of a record in order, or
nothing for a field that is left out. It is laid out as an object of the fields that are there, in
any order, or as an array of them if only the last ones are left out. The main statement is that a
reader of records makes the same of all layouts of a row.
-/
namespace SchemaWire

namespace Json

def present (row : List (String × Option Json)) : List (String × Json) :=
  row.filterMap fun slot => slot.2.map fun value => (slot.1, value)

/-- The layouts of a row. -/
inductive LaidOut (row : List (String × Option Json)) : Json → Prop where
  | object {members : List (String × Json)} (hmembers : members.Perm (present row)) :
      LaidOut row (.object members)
  | array {items : List Json} {missing : Nat}
      (hitems : row.map Prod.snd = items.map some ++ List.replicate missing none) :
      LaidOut row (.array items)

/-- The value of a field in one of its forms. A field with the value `missing` may be left out. -/
inductive Placed {α : Type} (form : α → Json → Prop) (missing : α) : α → Option Json → Prop where
  | there {value : α} {json : Json} (hform : form value json) :
      Placed form missing value (some json)
  | leftOut : Placed form missing missing none

theorem mem_present {row : List (String × Option Json)} {name : String} {value : Json} :
    (name, value) ∈ present row ↔ (name, some value) ∈ row := by
  constructor
  · intro hmem
    obtain ⟨⟨other, found⟩, hslot, hvalue⟩ := List.mem_filterMap.mp hmem
    obtain ⟨_, rfl, heq⟩ := Option.map_eq_some_iff.mp hvalue
    cases heq
    exact hslot
  · exact fun hmem => List.mem_filterMap.mpr ⟨_, hmem, rfl⟩

theorem nodup_present {row : List (String × Option Json)} (hrow : (row.map Prod.fst).Nodup) :
    ((present row).map Prod.fst).Nodup := by
  induction row with
  | nil => simp [present]
  | cons slot rest ih =>
      obtain ⟨name, value⟩ := slot
      rw [List.map_cons, List.nodup_cons] at hrow
      cases value with
      | none => exact ih hrow.2
      | some found =>
          refine List.nodup_cons.mpr ⟨fun hmem => hrow.1 ?_, ih hrow.2⟩
          obtain ⟨⟨other, json⟩, hother, rfl⟩ := List.mem_map.mp hmem
          exact List.mem_map.mpr ⟨_, mem_present.mp hother, rfl⟩

end Json

/-- What is known of the value of a field once the fields `seen` have been read. -/
def known {α : Type} (seen : List String) (name : String) (missing value : α) : α :=
  if name ∈ seen then value else missing

/-- A value is known once its field has been read, unless it is the missing one anyway. -/
theorem known_eq_of_seen {α : Type} {seen : List String} {name : String} {missing value : α}
    (h : value ≠ missing → name ∈ seen) : known seen name missing value = value := by
  by_cases heq : value = missing
  · rw [heq]
    exact ite_self missing
  · exact if_pos (h heq)

/-- What stands in the place of a value is a form of it. -/
theorem Json.Placed.form_of_eq {α : Type} {form : α → Json → Prop} {missing value : α}
    {slot : Option Json} {json : Json} (h : Placed form missing value slot)
    (heq : some json = slot) : form value json := by
  cases h with
  | there hform => exact Option.some.inj heq ▸ hform
  | leftOut => cases heq

theorem Json.Placed.known_eq {α : Type} {form : α → Json → Prop} {missing value : α}
    {slot : Option Json} {seen : List String} {name : String}
    (h : Placed form missing value slot) (hseen : ∀ json, slot = some json → name ∈ seen) :
    known seen name missing value = value := by
  refine known_eq_of_seen fun hne => ?_
  cases h with
  | there _ => exact hseen _ rfl
  | leftOut => exact absurd rfl hne

namespace RecordReader

variable {σ α : Type} {reader : RecordReader σ α} {row : List (String × Option Json)}
  {part : List String → σ} {record : α}

/-- The reader makes a record of the fields of a row: `part seen` is what it knows once it has read
the fields `seen`, in whatever order. -/
structure Reads (reader : RecordReader σ α) (row : List (String × Option Json))
    (part : List String → σ) (record : α) : Prop where
  names : row.map Prod.fst = reader.fields
  nodup : reader.fields.Nodup
  start : part [] = reader.start
  step : ∀ name value, (name, some value) ∈ row → ∀ seen,
    reader.readField name value (part seen) = .ok (part (name :: seen))
  finish : ∀ seen, (∀ name value, (name, some value) ∈ row → name ∈ seen) →
    reader.finish (part seen) = .ok record

namespace Reads

/-- One member after the other is added to what is known. -/
theorem readMembers (h : reader.Reads row part record) {members : List (String × Json)}
    {seen : List String} (hmembers : ∀ member ∈ members, member ∈ Json.present row)
    (hnodup : (members.map Prod.fst).Nodup) (hnew : ∀ member ∈ members, member.1 ∉ seen) :
    reader.readMembers seen (part seen) members =
      .ok (part ((members.map Prod.fst).reverse ++ seen)) := by
  induction members generalizing seen with
  | nil => rfl
  | cons member rest ih =>
      obtain ⟨name, value⟩ := member
      have hslot := Json.mem_present.mp (hmembers _ List.mem_cons_self)
      have hfield : name ∈ reader.fields := by
        rw [← h.names]
        exact List.mem_map.mpr ⟨_, hslot, rfl⟩
      rw [List.map_cons, List.nodup_cons] at hnodup
      have hrestNew : ∀ other ∈ rest, other.1 ∉ name :: seen := by
        intro other hother hseen
        rcases List.mem_cons.mp hseen with rfl | hold
        · exact hnodup.1 (List.mem_map.mpr ⟨other, hother, rfl⟩)
        · exact hnew other (List.mem_cons_of_mem _ hother) hold
      have hrest := ih (fun other hother => hmembers other (List.mem_cons_of_mem _ hother))
        hnodup.2 hrestNew
      rw [RecordReader.readMembers, if_pos hfield, if_neg (hnew _ List.mem_cons_self),
        h.step name value hslot seen]
      simpa [bind, Except.bind] using hrest

theorem readObject (h : reader.Reads row part record) {members : List (String × Json)}
    (hmembers : members.Perm (Json.present row)) :
    reader.readObject members false = .ok record := by
  have hnodup : (members.map Prod.fst).Nodup := by
    rw [(hmembers.map Prod.fst).nodup_iff]
    exact Json.nodup_present (h.names ▸ h.nodup)
  have hread := h.readMembers (fun member => hmembers.mem_iff.mp) hnodup
    fun _ _ => List.not_mem_nil
  have hfinish := h.finish (members.map Prod.fst).reverse fun name value hslot => by
    have hmember := hmembers.mem_iff.mpr (Json.mem_present.mpr hslot)
    simpa using ⟨value, hmember⟩
  rw [h.start, List.append_nil] at hread
  simp [RecordReader.readObject, hread, hfinish, Json.readEnd, bind, Except.bind, Except.mapError]

/-- The items of an array are read as the first fields in order, and none is left. -/
theorem readInOrder (h : reader.Reads row part record) {slots : List (String × Option Json)}
    (hslots : ∀ slot ∈ slots, slot ∈ row) {items : List Json} {missing : Nat}
    (hitems : slots.map Prod.snd = items.map some ++ List.replicate missing none)
    (seen : List String) :
    ∃ names, reader.readInOrder (part seen) (slots.map Prod.fst) items =
        .ok (part (names ++ seen), []) ∧
      ∀ name value, (name, some value) ∈ slots → name ∈ names := by
  induction slots generalizing items seen with
  | nil =>
      obtain rfl : items = [] := by
        cases items with
        | nil => rfl
        | cons item rest => cases hitems
      exact ⟨[], rfl, by simp⟩
  | cons slot rest ih =>
      obtain ⟨name, value⟩ := slot
      cases items with
      | nil =>
          refine ⟨[], rfl, fun other json hmem => ?_⟩
          have hnone : some json ∈ ((name, value) :: rest).map Prod.snd :=
            List.mem_map.mpr ⟨_, hmem, rfl⟩
          rw [hitems] at hnone
          cases (List.mem_replicate.mp hnone).2
      | cons item others =>
          obtain ⟨rfl, hrest⟩ := List.cons.inj hitems
          obtain ⟨names, hread, hnames⟩ := ih
            (fun slot hslot => hslots slot (List.mem_cons_of_mem _ hslot)) hrest (name :: seen)
          refine ⟨names ++ [name], ?_, fun other json hmem => ?_⟩
          · rw [List.map_cons, RecordReader.readInOrder,
              h.step name item (hslots _ List.mem_cons_self) seen]
            simpa [bind, Except.bind] using hread
          · rcases List.mem_cons.mp hmem with heq | hin
            · cases heq
              exact List.mem_append_right _ List.mem_cons_self
            · exact List.mem_append_left _ (hnames other json hin)

theorem readSequence (h : reader.Reads row part record) {items : List Json} {missing : Nat}
    (hitems : row.map Prod.snd = items.map some ++ List.replicate missing none)
    (source : JsonSource) : reader.readSequence source items = .ok record := by
  obtain ⟨names, hread, hnames⟩ := h.readInOrder (fun _ hslot => hslot) hitems []
  rw [h.names, h.start, List.append_nil] at hread
  have hfinish := h.finish names hnames
  simp [RecordReader.readSequence, hread, hfinish, refuseMore, bind, Except.bind, Except.mapError,
    pure, Except.pure]

/-- All layouts of a row are read as the record. -/
theorem read_eq (h : reader.Reads row part record) {json : Json} (hjson : Json.LaidOut row json)
    (source : JsonSource) : reader.read source json = .ok record := by
  cases hjson with
  | object hmembers => exact h.readObject hmembers
  | array hitems => exact h.readSequence hitems source

end Reads

end RecordReader

end SchemaWire
