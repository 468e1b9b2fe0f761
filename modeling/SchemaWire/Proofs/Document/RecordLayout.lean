import SchemaWire.Proofs.Document.Layout
import SchemaWire.Proofs.Entries

/-!
Records under changes of their layout. If the fields of a record are read independently of each
other, then the order of its members does not matter, nor do members that are ignored; and a change
inside the value of a field matters as far as it matters to the field. Errors are not compared: of
several, the first one in the text counts.
-/
namespace SchemaWire

section Results

variable {ε α β : Type} {x y : Except ε α} {f g : α → Except ε β}

/-- Steps with the same results give the same result one after the other. -/
theorem toOption_bind_congr (h : x.toOption = y.toOption)
    (hnext : ∀ a, (f a).toOption = (g a).toOption) : (x >>= f).toOption = (y >>= g).toOption := by
  cases x <;> cases y <;> cases h
  · rfl
  · exact hnext _

theorem toOption_map_congr (h : x.toOption = y.toOption) (f : α → β) :
    (x.map f).toOption = (y.map f).toOption := by
  cases x <;> cases y <;> cases h <;> rfl

/-- What always fails in the end has no result. -/
theorem toOption_bind_none (h : ∀ a, (f a).toOption = none) : (x >>= f).toOption = none := by
  cases x with
  | error _ => rfl
  | ok a => exact h a

theorem except_map_map {γ : Type} (x : Except ε α) (f : α → β) (g : β → γ) :
    (x.map f).map g = x.map (fun a => g (f a)) := by
  cases x <;> rfl

end Results

open Json (Relaid)

namespace RecordReader

variable {σ α : Type} {reader : RecordReader σ α}

/-- Different fields may be read in either order. -/
def Commutes (reader : RecordReader σ α) : Prop :=
  ∀ first ∈ reader.fields, ∀ second ∈ reader.fields, first ≠ second → ∀ value other part,
    (reader.readField first value part >>= reader.readField second other).toOption =
      (reader.readField second other part >>= reader.readField first value).toOption

/-- If reading a field replaces what is known of it, and what is known of different fields is
replaced independently, then different fields may be read in either order. -/
theorem commutes_of_merge (merge : String → σ → σ → σ)
    (hread : ∀ name ∈ reader.fields, ∀ value part, reader.readField name value part =
      (reader.readField name value reader.start).map (merge name · part))
    (hmerge : ∀ first ∈ reader.fields, ∀ second ∈ reader.fields, first ≠ second →
      ∀ read other part, merge second other (merge first read part) =
        merge first read (merge second other part)) : reader.Commutes := by
  intro first hfirst second hsecond hne value other part
  obtain ⟨read, hvalue⟩ : ∃ read : Read σ, reader.readField first value =
      fun part => read.map (merge first · part) := ⟨_, funext (hread first hfirst value)⟩
  obtain ⟨otherRead, hother⟩ : ∃ read : Read σ, reader.readField second other =
      fun part => read.map (merge second · part) := ⟨_, funext (hread second hsecond other)⟩
  rw [hvalue, hother]
  cases read with
  | error _ => cases otherRead <;> rfl
  | ok read =>
      cases otherRead with
      | error _ => rfl
      | ok otherRead =>
          exact congrArg some (hmerge first hfirst second hsecond hne read otherRead part)

theorem readMembers_congr_seen {seen others : List String}
    (h : ∀ name, name ∈ seen ↔ name ∈ others) (members : List (String × Json)) (part : σ) :
    reader.readMembers seen part members = reader.readMembers others part members := by
  induction members generalizing seen others part with
  | nil => rfl
  | cons member rest ih =>
      obtain ⟨name, value⟩ := member
      have hnext : ∀ other, other ∈ name :: seen ↔ other ∈ name :: others := by
        simp [h]
      simp only [readMembers, h, ih hnext, ih h]

theorem toOption_readMembers_known {name : String} (hfield : name ∈ reader.fields)
    (seen : List String) (part : σ) (value : Json) (rest : List (String × Json)) :
    (reader.readMembers seen part ((name, value) :: rest)).toOption =
      if name ∈ seen then none
      else (reader.readField name value part >>= fun next =>
        reader.readMembers (name :: seen) next rest).toOption := by
  rw [readMembers, if_pos hfield]
  split <;> rfl

theorem toOption_readMembers_unknown {name : String} (hfield : name ∉ reader.fields)
    (seen : List String) (part : σ) (value : Json) (rest : List (String × Json)) :
    (reader.readMembers seen part ((name, value) :: rest)).toOption =
      if reader.isClosed = true ∨ value.isSkippable = false then none
      else (reader.readMembers seen part rest).toOption := by
  rw [readMembers, if_neg hfield, Json.skip]
  cases reader.isClosed <;> cases value.isSkippable <;> rfl

/-- A field and a member that is ignored or refused may come in either order. -/
theorem readMembers_swap_unknown {name otherName : String} (hname : name ∈ reader.fields)
    (hother : otherName ∉ reader.fields) (value other : Json) (rest : List (String × Json))
    (seen : List String) (part : σ) :
    (reader.readMembers seen part ((name, value) :: (otherName, other) :: rest)).toOption =
      (reader.readMembers seen part ((otherName, other) :: (name, value) :: rest)).toOption := by
  rw [toOption_readMembers_known hname, toOption_readMembers_unknown hother,
    toOption_readMembers_known hname]
  by_cases hrefused : reader.isClosed = true ∨ other.isSkippable = false
  · rw [if_pos hrefused]
    split
    · rfl
    · refine toOption_bind_none fun next => ?_
      rw [toOption_readMembers_unknown hother, if_pos hrefused]
  · rw [if_neg hrefused]
    refine if_congr Iff.rfl rfl (toOption_bind_congr rfl fun next => ?_)
    rw [toOption_readMembers_unknown hother, if_neg hrefused]

/-- Two fields may come in either order. If they are the same, they are refused in both. -/
theorem readMembers_swap_known (h : reader.Commutes) {name otherName : String}
    (hname : name ∈ reader.fields) (hother : otherName ∈ reader.fields) (value other : Json)
    (rest : List (String × Json)) (seen : List String) (part : σ) :
    (reader.readMembers seen part ((name, value) :: (otherName, other) :: rest)).toOption =
      (reader.readMembers seen part ((otherName, other) :: (name, value) :: rest)).toOption := by
  rw [toOption_readMembers_known hname, toOption_readMembers_known hother]
  by_cases hrefused : name ∈ seen ∨ otherName ∈ seen ∨ name = otherName
  · -- On both sides one of the two is found a second time.
    trans none
    · split
      · rfl
      · refine toOption_bind_none fun next => ?_
        rw [toOption_readMembers_known hother, if_pos]
        simp only [List.mem_cons]
        tauto
    · symm
      split
      · rfl
      · refine toOption_bind_none fun next => ?_
        rw [toOption_readMembers_known hname, if_pos]
        simp only [List.mem_cons]
        tauto
  · obtain ⟨hnew, hotherNew, hne⟩ : name ∉ seen ∧ otherName ∉ seen ∧ name ≠ otherName := by
      simpa only [not_or] using hrefused
    have hfirst (next : σ) : (reader.readMembers (name :: seen) next ((otherName, other) :: rest)) =
        reader.readField otherName other next >>= fun next =>
          reader.readMembers (otherName :: name :: seen) next rest := by
      rw [readMembers, if_pos hother, if_neg (by simp [hotherNew, Ne.symm hne])]
    have hsecond (next : σ) :
        (reader.readMembers (otherName :: seen) next ((name, value) :: rest)) =
        reader.readField name value next >>= fun next =>
          reader.readMembers (otherName :: name :: seen) next rest := by
      rw [readMembers, if_pos hname, if_neg (by simp [hnew, hne])]
      exact congrArg _ (funext fun next =>
        readMembers_congr_seen (fun name => by simp [or_left_comm]) rest next)
    rw [if_neg hnew, if_neg hotherNew]
    simp only [hfirst, hsecond, ← bind_assoc]
    exact toOption_bind_congr (h name hname otherName hother hne value other part) fun _ => rfl

/-- Two members may come in either order. -/
theorem readMembers_swap (h : reader.Commutes) (first second : String × Json)
    (rest : List (String × Json)) (seen : List String) (part : σ) :
    (reader.readMembers seen part (first :: second :: rest)).toOption =
      (reader.readMembers seen part (second :: first :: rest)).toOption := by
  by_cases hfirst : first.1 ∈ reader.fields <;> by_cases hsecond : second.1 ∈ reader.fields
  · exact readMembers_swap_known h hfirst hsecond first.2 second.2 rest seen part
  · exact readMembers_swap_unknown hfirst hsecond first.2 second.2 rest seen part
  · exact (readMembers_swap_unknown hsecond hfirst second.2 first.2 rest seen part).symm
  · simp only [toOption_readMembers_unknown hfirst, toOption_readMembers_unknown hsecond]
    split_ifs <;> rfl

/-- The rest of the members may be replaced by what gives the same result. -/
theorem readMembers_cons_congr {rest others : List (String × Json)}
    (h : ∀ seen part, (reader.readMembers seen part rest).toOption =
      (reader.readMembers seen part others).toOption) (member : String × Json)
    (seen : List String) (part : σ) :
    (reader.readMembers seen part (member :: rest)).toOption =
      (reader.readMembers seen part (member :: others)).toOption := by
  by_cases hfield : member.1 ∈ reader.fields
  · rw [toOption_readMembers_known hfield, toOption_readMembers_known hfield]
    exact if_congr Iff.rfl rfl (toOption_bind_congr rfl fun next => h _ next)
  · rw [toOption_readMembers_unknown hfield, toOption_readMembers_unknown hfield, h]

/-- The order of the members does not matter. -/
theorem readMembers_perm (h : reader.Commutes) {members others : List (String × Json)}
    (hperm : members.Perm others) (seen : List String) (part : σ) :
    (reader.readMembers seen part members).toOption =
      (reader.readMembers seen part others).toOption := by
  induction hperm generalizing seen part with
  | nil => rfl
  | cons member _ ih => exact readMembers_cons_congr ih member seen part
  | swap first second rest => exact readMembers_swap h second first rest seen part
  | trans _ _ ih ihNext => exact (ih seen part).trans (ihNext seen part)

/-- A member that is ignored may be there or not. -/
theorem readMembers_extended {name : String} {value : Json} (hfield : name ∉ reader.fields)
    (hclosed : reader.isClosed = false) (hskip : value.isSkippable = true)
    (before after : List (String × Json)) (seen : List String) (part : σ) :
    (reader.readMembers seen part (before ++ after)).toOption =
      (reader.readMembers seen part (before ++ (name, value) :: after)).toOption := by
  induction before generalizing seen part with
  | nil =>
      rw [List.nil_append, List.nil_append, toOption_readMembers_unknown hfield,
        if_neg (by simp [hclosed, hskip])]
  | cons member rest ih => exact readMembers_cons_congr ih member seen part

/-- A value may be replaced by one that is read alike, or is ignored alike. -/
theorem readMembers_member {name : String} {value other : Json}
    (hfield : name ∈ reader.fields → ∀ part, (reader.readField name value part).toOption =
      (reader.readField name other part).toOption) (hskip : value.isSkippable = other.isSkippable)
    (before after : List (String × Json)) (seen : List String) (part : σ) :
    (reader.readMembers seen part (before ++ (name, value) :: after)).toOption =
      (reader.readMembers seen part (before ++ (name, other) :: after)).toOption := by
  induction before generalizing seen part with
  | nil =>
      rw [List.nil_append, List.nil_append]
      by_cases hknown : name ∈ reader.fields
      · rw [toOption_readMembers_known hknown, toOption_readMembers_known hknown]
        exact if_congr Iff.rfl rfl (toOption_bind_congr (hfield hknown part) fun _ => rfl)
      · rw [toOption_readMembers_unknown hknown, toOption_readMembers_unknown hknown, hskip]
  | cons member rest ih => exact readMembers_cons_congr ih member seen part

/-- Where other fields are refused, a single one is enough. -/
theorem readMembers_refused {name : String} {value : Json} {members : List (String × Json)}
    (hclosed : reader.isClosed = true) (hmember : (name, value) ∈ members)
    (hname : name ∉ reader.fields) (seen : List String) (part : σ) :
    (reader.readMembers seen part members).toOption = none := by
  induction members generalizing seen part with
  | nil => cases hmember
  | cons member rest ih =>
      by_cases hfield : member.1 ∈ reader.fields
      · rw [toOption_readMembers_known hfield]
        split
        · rfl
        · have hrest : (name, value) ∈ rest := by
            rcases List.mem_cons.mp hmember with rfl | hrest
            · exact absurd hfield hname
            · exact hrest
          exact toOption_bind_none fun next => ih hrest _ next
      · rw [toOption_readMembers_unknown hfield, if_pos (Or.inl hclosed)]

theorem readObject_congr {members others : List (String × Json)}
    (h : ∀ seen part, (reader.readMembers seen part members).toOption =
      (reader.readMembers seen part others).toOption) :
    (reader.readObject members false).toOption = (reader.readObject others false).toOption :=
  toOption_bind_congr (h [] reader.start) fun _ => rfl

/-- What the items of an array fill, and whether none is left. -/
def fillInOrder (reader : RecordReader σ α) (part : σ) (names : List String) (items : List Json) :
    Read (σ × Bool) :=
  (reader.readInOrder part names items).map fun result => (result.1, result.2.isEmpty)

theorem fillInOrder_cons (name : String) (names : List String) (item : Json) (items : List Json)
    (part : σ) : reader.fillInOrder part (name :: names) (item :: items) =
      reader.readField name item part >>= fun next => reader.fillInOrder next names items := by
  rw [fillInOrder, readInOrder]
  cases reader.readField name item part <;> rfl

theorem toOption_readSequence (source : JsonSource) (items : List Json) :
    (reader.readSequence source items).toOption =
      (reader.fillInOrder reader.start reader.fields items).toOption.bind fun result =>
        if result.2 = true then (reader.finish result.1).toOption else none := by
  rw [readSequence, fillInOrder]
  cases reader.readInOrder reader.start reader.fields items with
  | error _ => rfl
  | ok result =>
      obtain ⟨part, rest⟩ := result
      cases hfinish : reader.finish part with
      | error _ => cases rest <;> simp [Except.toOption, Except.map, bind, Except.bind, hfinish,
          Except.mapError]
      | ok record =>
          cases rest <;> cases source <;> simp [Except.toOption, Except.map, bind, Except.bind,
            hfinish, Except.mapError, refuseMore, pure, Except.pure]

theorem fillInOrder_item {names : List String} {value other : Json} (before after : List Json)
    (hfield : ∀ name, names[before.length]? = some name → ∀ part,
      (reader.readField name value part).toOption = (reader.readField name other part).toOption)
    (part : σ) :
    (reader.fillInOrder part names (before ++ value :: after)).toOption =
      (reader.fillInOrder part names (before ++ other :: after)).toOption := by
  induction before generalizing names part with
  | nil =>
      cases names with
      | nil => rfl
      | cons name names =>
          simp only [List.nil_append, fillInOrder_cons]
          exact toOption_bind_congr (hfield name rfl part) fun _ => rfl
  | cons item rest ih =>
      cases names with
      | nil => rfl
      | cons name names =>
          simp only [List.cons_append, fillInOrder_cons]
          exact toOption_bind_congr rfl fun next => ih (fun name hname => hfield name hname) next

/-- The reader reads the records at a place: it knows their fields, ignores others where they may
be added, and reads each field independently of the others and alike under changes of its layout. -/
structure ReadsAt (reader : RecordReader σ α) (place : Place) : Prop where
  fields_eq : reader.fields = place.names
  nodup : place.names.Nodup
  isClosed : place.isOpen = true → reader.isClosed = false
  member_eq : ∀ name, place.member name = (place.fields.lookup name).getD .elsewhere
  item_eq : ∀ position,
    place.item position = (place.fields[position]?.map Prod.snd).getD .elsewhere
  commutes : reader.Commutes
  readField : ∀ name inner, (name, inner) ∈ place.fields → ∀ value other,
    Relaid inner value other → ∀ part,
      (reader.readField name value part).toOption = (reader.readField name other part).toOption

/-- A record is the same after a change of its layout. -/
theorem ReadsAt.read_eq {place : Place} {value other : Json} (h : reader.ReadsAt place)
    (hrelaid : Relaid place value other) (source : JsonSource) :
    (reader.read source value).toOption = (reader.read source other).toOption := by
  cases hrelaid with
  | reordered _ hperm => exact readObject_congr (readMembers_perm h.commutes hperm)
  | extended before after hopen hname hwhole =>
      rw [← h.fields_eq] at hname
      exact readObject_congr (readMembers_extended hname (h.isClosed hopen)
        (Json.isSkippable_of_whole _ hwhole) before after)
  | member before after name hvalue =>
      refine readObject_congr (readMembers_member (fun hfield => ?_) hvalue.isSkippable_eq before
        after)
      rw [h.fields_eq] at hfield
      obtain ⟨inner, hinner⟩ := exists_lookup_iff_mem_keys.mpr hfield
      rw [h.member_eq, hinner] at hvalue
      exact h.readField name inner ((lookup_eq_some_iff_mem h.nodup).mp hinner) _ _ hvalue
  | item before after hvalue =>
      change (reader.readSequence source _).toOption = (reader.readSequence source _).toOption
      rw [toOption_readSequence, toOption_readSequence,
        fillInOrder_item before after fun name hname => ?_]
      rw [h.fields_eq, Place.names, List.getElem?_map, Option.map_eq_some_iff] at hname
      obtain ⟨⟨_, inner⟩, hentry, rfl⟩ := hname
      rw [h.item_eq, hentry] at hvalue
      exact h.readField _ inner (List.mem_of_getElem? hentry) _ _ hvalue

end RecordReader

/-! Arrays. -/

namespace Json

variable {α : Type} {read : Json → Read α} {place : Place} {value other : Json}

theorem readItems_item (before after : List Json)
    (h : (read value).toOption = (read other).toOption) :
    (readItems read (before ++ value :: after)).toOption =
      (readItems read (before ++ other :: after)).toOption := by
  induction before with
  | nil => exact toOption_bind_congr h fun _ => rfl
  | cons item rest ih => exact toOption_bind_congr rfl fun _ => toOption_bind_congr ih fun _ => rfl

/-- A list is the same after a change of the layout of an item. -/
theorem Relaid.readArray_eq (h : Relaid place value other)
    (hitem : ∀ position value other, Relaid (place.item position) value other →
      (read value).toOption = (read other).toOption) :
    (value.readArray read).toOption = (other.readArray read).toOption := by
  cases h with
  | item before after hvalue => exact readItems_item before after (hitem _ _ _ hvalue)
  | _ => rfl

end Json

end SchemaWire
