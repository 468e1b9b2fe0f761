import SchemaWire.Proofs.Document.RecordLayout

/-!
Type expressions under changes of their layout. They are read from self-describing values, in which
the keys of a record are only compared with the names of its fields: what counts is what stands
under each name. The main statement is that a type expression is the same after every change.
-/
namespace SchemaWire

namespace Content

variable {α β : Type}

def textEntries (named : List (String × α)) : List (Content × α) :=
  named.map fun entry => (.text entry.1, entry.2)

/-- What stands under a name. -/
def under (name : String) (named : List (String × α)) : List α :=
  (named.filter fun entry => entry.1 = name).map Prod.snd

/-- The value of a field after more values for it, of which there may be one in all. -/
def fill? : Option α → List α → Option (Option α)
  | field, [] => some field
  | none, [value] => some (some value)
  | _, _ => none

theorem under_cons_self (name : String) (value : α) (named : List (String × α)) :
    under name ((name, value) :: named) = value :: under name named := by
  simp [under]

theorem under_cons_of_ne {name key : String} (h : key ≠ name) (value : α)
    (named : List (String × α)) : under name ((key, value) :: named) = under name named := by
  simp [under, h]

theorem under_append (name : String) (first second : List (String × α)) :
    under name (first ++ second) = under name first ++ under name second := by
  simp [under]

theorem fill?_none_cons (value : α) (values : List α) :
    fill? none (value :: values) = fill? (some value) values := by
  cases values <;> simp [fill?]

theorem fill?_some_cons (found value : α) (values : List α) :
    fill? (some found) (value :: values) = none := by
  simp [fill?]

theorem keyPosition?_pair (first second key : String) :
    keyPosition? [first, second] (.text key) =
      some (if key = first then some 0 else if key = second then some 1 else none) := by
  simp only [keyPosition?, positionOf?, List.findIdx?_cons, List.findIdx?_nil, decide_eq_true_eq,
    @eq_comm _ key]
  split_ifs <;> rfl

/-- The fields of a record of two, from what stands under their names. -/
theorem fillFields?_pair {first second : String} (hne : first ≠ second)
    (named : List (String × α)) (x y : Option α) :
    fillFields? [first, second] [x, y] (textEntries named) =
      (fill? x (under first named)).bind fun x =>
        (fill? y (under second named)).map fun y => [x, y] := by
  induction named generalizing x y with
  | nil => cases x <;> cases y <;> rfl
  | cons entry rest ih =>
      obtain ⟨key, value⟩ := entry
      change fillFields? _ _ ((.text key, value) :: textEntries rest) = _
      rw [fillFields?, keyPosition?_pair]
      by_cases hfirst : key = first
      · rw [hfirst, under_cons_self, under_cons_of_ne hne, if_pos rfl]
        cases x with
        | none => exact (ih (some value) y).trans (by rw [fill?_none_cons])
        | some found => rw [fill?_some_cons]; rfl
      · by_cases hsecond : key = second
        · rw [hsecond, under_cons_self, under_cons_of_ne (Ne.symm hne), if_neg (Ne.symm hne),
            if_pos rfl]
          cases y with
          | none => exact (ih x (some value)).trans (by rw [fill?_none_cons])
          | some found => rw [fill?_some_cons]; cases fill? x (under first rest) <;> rfl
        · rw [under_cons_of_ne hfirst, under_cons_of_ne hsecond, if_neg hfirst, if_neg hsecond]
          exact ih x y

/-- The order of the values does not matter: there is one at most. -/
theorem fill?_none_perm {values others : List α} (h : values.Perm others) :
    fill? none values = fill? none others := by
  match values, others, h with
  | [], _, h => rw [List.nil_perm.mp h]
  | [value], _, h => rw [List.singleton_perm.mp h]
  | _ :: _ :: _, [], h => cases h.length_eq
  | _ :: _ :: _, [_], h => cases h.length_eq
  | _ :: _ :: _, _ :: _ :: _, _ => simp [fill?]

/-- One of the values may be replaced by one that is read alike. -/
theorem map_fill?_none_congr {read : α → β} {value other : α} (h : read value = read other)
    (before after : List α) :
    (fill? none (before ++ value :: after)).map (Option.map read) =
      (fill? none (before ++ other :: after)).map (Option.map read) := by
  match before, after with
  | [], [] => simp [fill?, h]
  | [], _ :: _ => simp [fill?]
  | [_], _ => simp [fill?]
  | _ :: _ :: _, _ => simp [fill?]

/-- A record of two fields, each read on its own. -/
def readPair {γ : Type} (first second : String) (read : Content → β) (readSecond : Content → γ)
    (content : Content) : Option (Option β × Option γ) :=
  match content.fields? [first, second] with
  | some [x, y] => some (x.map read, y.map readSecond)
  | _ => none

section Pair

variable {γ : Type} {first second : String} {read : Content → β} {readSecond : Content → γ}

theorem readPair_mapping (hne : first ≠ second) (named : List (String × Content)) :
    readPair first second read readSecond (.mapping (textEntries named)) =
      ((fill? none (under first named)).map (Option.map read)).bind fun x =>
        ((fill? none (under second named)).map (Option.map readSecond)).map fun y => (x, y) := by
  have hfields : (Content.mapping (textEntries named)).fields? [first, second] =
      fillFields? [first, second] [none, none] (textEntries named) := rfl
  rw [readPair, hfields, fillFields?_pair hne]
  cases fill? none (under first named) <;> cases fill? none (under second named) <;> rfl

theorem readPair_perm (hne : first ≠ second) {named others : List (String × Content)}
    (h : named.Perm others) :
    readPair first second read readSecond (.mapping (textEntries named)) =
      readPair first second read readSecond (.mapping (textEntries others)) := by
  have hunder (name : String) : fill? none (under name named) = fill? none (under name others) :=
    fill?_none_perm ((h.filter _).map _)
  rw [readPair_mapping hne, readPair_mapping hne, hunder, hunder]

theorem readPair_extended (hne : first ≠ second) {name : String} (hname : name ∉ [first, second])
    (before after : List (String × Content)) (content : Content) :
    readPair first second read readSecond (.mapping (textEntries (before ++ after))) =
      readPair first second read readSecond
        (.mapping (textEntries (before ++ (name, content) :: after))) := by
  simp only [List.mem_cons, List.not_mem_nil, or_false, not_or] at hname
  rw [readPair_mapping hne, readPair_mapping hne, under_append, under_append, under_append,
    under_append, under_cons_of_ne hname.1, under_cons_of_ne hname.2]

theorem readPair_member (hne : first ≠ second) {name : String} {content other : Content}
    (hfirst : name = first → read content = read other)
    (hsecond : name = second → readSecond content = readSecond other)
    (before after : List (String × Content)) :
    readPair first second read readSecond
        (.mapping (textEntries (before ++ (name, content) :: after))) =
      readPair first second read readSecond
        (.mapping (textEntries (before ++ (name, other) :: after))) := by
  have hunder {δ : Type} (field : String) (read : Content → δ)
      (h : name = field → read content = read other) :
      (fill? none (under field (before ++ (name, content) :: after))).map (Option.map read) =
        (fill? none (under field (before ++ (name, other) :: after))).map (Option.map read) := by
    by_cases hfield : name = field
    · rw [under_append, under_append, hfield, under_cons_self, under_cons_self]
      exact map_fill?_none_congr (h hfield) _ _
    · rw [under_append, under_append, under_cons_of_ne hfield, under_cons_of_ne hfield]
  rw [readPair_mapping hne, readPair_mapping hne, hunder first read hfirst,
    hunder second readSecond hsecond]

theorem readPair_item {content other : Content} (before after : List Content)
    (hfirst : before.length = 0 → read content = read other)
    (hsecond : before.length = 1 → readSecond content = readSecond other) :
    readPair first second read readSecond (.list (before ++ content :: after)) =
      readPair first second read readSecond (.list (before ++ other :: after)) := by
  match before, after with
  | [], [] => simp [readPair, fields?, fieldsOfItems?, hfirst rfl]
  | [], [_] => simp [readPair, fields?, fieldsOfItems?, hfirst rfl]
  | [], _ :: _ :: _ => simp [readPair, fields?, fieldsOfItems?]
  | [_], [] => simp [readPair, fields?, fieldsOfItems?, hsecond rfl]
  | [_], _ :: _ => simp [readPair, fields?, fieldsOfItems?]
  | _ :: _ :: _, _ => simp [readPair, fields?, fieldsOfItems?]

end Pair

end Content

open Content (textEntries)

namespace Json

variable {β : Type}

def namedContents? (members : List (String × Json)) : Option (List (String × Content)) :=
  members.mapM fun member => member.2.content?.map fun content => (member.1, content)

theorem content?_object (members : List (String × Json)) :
    (Json.object members).content? =
      (namedContents? members).map fun named => .mapping (textEntries named) := by
  rw [content?]
  have h : memberContents? members = (namedContents? members).map textEntries := by
    induction members with
    | nil => rfl
    | cons member rest ih =>
        rw [memberContents?, namedContents?, List.mapM_cons, ih, namedContents?]
        cases member.2.content? with
        | none => rfl
        | some content => cases rest.mapM fun member : String × Json =>
            member.2.content?.map fun content => (member.1, content) <;> rfl
  rw [h, Option.map_map]
  rfl

theorem namedContents?_cons_eq_some_iff {member : String × Json} {rest : List (String × Json)}
    {named : List (String × Content)} :
    namedContents? (member :: rest) = some named ↔ ∃ content others,
      member.2.content? = some content ∧ namedContents? rest = some others ∧
        named = (member.1, content) :: others := by
  rw [namedContents?, List.mapM_cons]
  cases member.2.content? with
  | none => simp
  | some content =>
      cases hrest : namedContents? rest with
      | none => simp [namedContents?] at hrest; simp [hrest]
      | some others =>
          rw [namedContents?] at hrest
          simp [hrest, eq_comm]

theorem namedContents?_append_eq_some_iff {before after : List (String × Json)}
    {named : List (String × Content)} :
    namedContents? (before ++ after) = some named ↔ ∃ first second,
      namedContents? before = some first ∧ namedContents? after = some second ∧
        named = first ++ second := by
  rw [namedContents?, List.mapM_append]
  change (namedContents? before >>= fun first => namedContents? after >>= fun second =>
    pure (first ++ second)) = some named ↔ _
  cases namedContents? before <;> cases namedContents? after <;> simp [eq_comm]

theorem namedContents?_perm {members others : List (String × Json)} (h : members.Perm others)
    {named : List (String × Content)} (hnamed : namedContents? members = some named) :
    ∃ renamed, namedContents? others = some renamed ∧ named.Perm renamed := by
  induction h generalizing named with
  | nil => exact ⟨named, hnamed, .refl _⟩
  | cons member _ ih =>
      obtain ⟨content, rest, hcontent, hrest, rfl⟩ := namedContents?_cons_eq_some_iff.mp hnamed
      obtain ⟨renamed, hrenamed, hperm⟩ := ih hrest
      exact ⟨_, namedContents?_cons_eq_some_iff.mpr ⟨content, renamed, hcontent, hrenamed, rfl⟩,
        hperm.cons _⟩
  | swap first second rest =>
      obtain ⟨x, others, hx, hothers, rfl⟩ := namedContents?_cons_eq_some_iff.mp hnamed
      obtain ⟨y, named, hy, hrest, rfl⟩ := namedContents?_cons_eq_some_iff.mp hothers
      exact ⟨_, namedContents?_cons_eq_some_iff.mpr ⟨y, _, hy,
        namedContents?_cons_eq_some_iff.mpr ⟨x, named, hx, hrest, rfl⟩, rfl⟩, .swap _ _ _⟩
  | trans _ _ ih ihNext =>
      obtain ⟨middle, hmiddle, hperm⟩ := ih hnamed
      obtain ⟨renamed, hrenamed, hnext⟩ := ihNext hmiddle
      exact ⟨renamed, hrenamed, hperm.trans hnext⟩

theorem contents?_eq_mapM (items : List Json) : contents? items = items.mapM content? := by
  induction items with
  | nil => rfl
  | cons item rest ih => rw [contents?, List.mapM_cons, ih]

theorem contents?_append_eq_some_iff {before after : List Json} {contents : List Content} :
    contents? (before ++ after) = some contents ↔ ∃ first second,
      contents? before = some first ∧ contents? after = some second ∧
        contents = first ++ second := by
  simp only [contents?_eq_mapM, List.mapM_append]
  cases before.mapM content? <;> cases after.mapM content? <;> simp [eq_comm]

theorem contents?_cons_eq_some_iff {item : Json} {rest : List Json} {contents : List Content} :
    contents? (item :: rest) = some contents ↔ ∃ content others,
      item.content? = some content ∧ contents? rest = some others ∧
        contents = content :: others := by
  rw [contents?]
  cases item.content? <;> cases contents? rest <;> simp [eq_comm]

theorem length_contents? {items : List Json} {contents : List Content}
    (h : contents? items = some contents) : contents.length = items.length := by
  induction items generalizing contents with
  | nil => cases h; rfl
  | cons item rest ih =>
      obtain ⟨content, others, _, hothers, rfl⟩ := contents?_cons_eq_some_iff.mp h
      rw [List.length_cons, List.length_cons, ih hothers]

/-- Both values are whole and read alike, or none of them is whole. -/
def AlikeBy (read : Content → β) (value other : Json) : Prop :=
  value.content?.map read = other.content?.map read

variable {read : Content → β} {place : Place} {value other : Json}

theorem AlikeBy.eq {content otherContent : Content} (h : AlikeBy read value other)
    (hvalue : value.content? = some content) (hother : other.content? = some otherContent) :
    read content = read otherContent := by
  rw [AlikeBy, hvalue, hother] at h
  exact Option.some.inj h

/-- After a change it is enough to compare what whole values are read as. -/
theorem Relaid.alikeBy (h : Relaid place value other)
    (heq : ∀ content otherContent, value.content? = some content →
      other.content? = some otherContent → read content = read otherContent) :
    AlikeBy read value other := by
  have hwhole := h.isSome_content?_eq
  rw [AlikeBy]
  cases hvalue : value.content? with
  | none =>
      rw [hvalue] at hwhole
      have hother : other.content? = none := by simpa using hwhole.symm
      rw [hother]
  | some content =>
      rw [hvalue] at hwhole
      obtain ⟨otherContent, hother⟩ := Option.isSome_iff_exists.mp hwhole.symm
      rw [hother, Option.map_some, Option.map_some, heq content otherContent hvalue hother]

/-- Objects are read alike if all objects are. -/
theorem Relaid.alikeBy_objects {members others : List (String × Json)}
    (h : Relaid place (.object members) (.object others))
    (hread : ∀ entries otherEntries, read (.mapping entries) = read (.mapping otherEntries)) :
    AlikeBy read (.object members) (.object others) := by
  refine h.alikeBy fun content otherContent hcontent hother => ?_
  rw [content?_object, Option.map_eq_some_iff] at hcontent hother
  obtain ⟨named, _, rfl⟩ := hcontent
  obtain ⟨renamed, _, rfl⟩ := hother
  exact hread _ _

theorem Relaid.alikeBy_arrays {items others : List Json}
    (h : Relaid place (.array items) (.array others))
    (hread : ∀ contents otherContents, read (.list contents) = read (.list otherContents)) :
    AlikeBy read (.array items) (.array others) := by
  refine h.alikeBy fun content otherContent hcontent hother => ?_
  rw [content?, Option.map_eq_some_iff] at hcontent hother
  obtain ⟨contents, _, rfl⟩ := hcontent
  obtain ⟨otherContents, _, rfl⟩ := hother
  exact hread _ _

theorem alikeBy_reordered {members others : List (String × Json)} (hperm : members.Perm others)
    (hread : ∀ named renamed, named.Perm renamed →
      read (.mapping (textEntries named)) = read (.mapping (textEntries renamed))) :
    AlikeBy read (.object members) (.object others) := by
  rw [AlikeBy, content?_object, content?_object, Option.map_map, Option.map_map]
  cases hmembers : namedContents? members with
  | none =>
      cases hothers : namedContents? others with
      | none => rfl
      | some renamed =>
          obtain ⟨named, hnamed, _⟩ := namedContents?_perm hperm.symm hothers
          cases hmembers.symm.trans hnamed
  | some named =>
      obtain ⟨renamed, hothers, hnamed⟩ := namedContents?_perm hperm hmembers
      rw [hothers]
      exact congrArg some (hread named renamed hnamed)

theorem alikeBy_extended {before after : List (String × Json)} {name : String} {value : Json}
    (h : Relaid place (.object (before ++ after)) (.object (before ++ (name, value) :: after)))
    (hread : ∀ first second content, read (.mapping (textEntries (first ++ second))) =
      read (.mapping (textEntries (first ++ (name, content) :: second)))) :
    AlikeBy read (.object (before ++ after)) (.object (before ++ (name, value) :: after)) := by
  refine h.alikeBy fun content otherContent hcontent hother => ?_
  rw [content?_object, Option.map_eq_some_iff] at hcontent hother
  obtain ⟨named, hnamed, rfl⟩ := hcontent
  obtain ⟨renamed, hrenamed, rfl⟩ := hother
  obtain ⟨first, second, hfirst, hsecond, rfl⟩ := namedContents?_append_eq_some_iff.mp hnamed
  obtain ⟨first', more, hfirst', hmore, rfl⟩ := namedContents?_append_eq_some_iff.mp hrenamed
  obtain ⟨content, second', _, hsecond', rfl⟩ := namedContents?_cons_eq_some_iff.mp hmore
  cases hfirst.symm.trans hfirst'
  cases hsecond.symm.trans hsecond'
  exact hread first second content

theorem alikeBy_member {before after : List (String × Json)} {name : String}
    (h : Relaid place (.object (before ++ (name, value) :: after))
      (.object (before ++ (name, other) :: after)))
    (hread : ∀ first second content otherContent, value.content? = some content →
      other.content? = some otherContent →
        read (.mapping (textEntries (first ++ (name, content) :: second))) =
          read (.mapping (textEntries (first ++ (name, otherContent) :: second)))) :
    AlikeBy read (.object (before ++ (name, value) :: after))
      (.object (before ++ (name, other) :: after)) := by
  refine h.alikeBy fun content otherContent hcontent hother => ?_
  rw [content?_object, Option.map_eq_some_iff] at hcontent hother
  obtain ⟨named, hnamed, rfl⟩ := hcontent
  obtain ⟨renamed, hrenamed, rfl⟩ := hother
  obtain ⟨first, more, hfirst, hmore, rfl⟩ := namedContents?_append_eq_some_iff.mp hnamed
  obtain ⟨first', more', hfirst', hmore', rfl⟩ := namedContents?_append_eq_some_iff.mp hrenamed
  obtain ⟨x, second, hx, hsecond, rfl⟩ := namedContents?_cons_eq_some_iff.mp hmore
  obtain ⟨y, second', hy, hsecond', rfl⟩ := namedContents?_cons_eq_some_iff.mp hmore'
  cases hfirst.symm.trans hfirst'
  cases hsecond.symm.trans hsecond'
  exact hread first second x y hx hy

theorem alikeBy_item {before after : List Json}
    (h : Relaid place (.array (before ++ value :: after)) (.array (before ++ other :: after)))
    (hread : ∀ first second content otherContent, first.length = before.length →
      value.content? = some content → other.content? = some otherContent →
        read (.list (first ++ content :: second)) =
          read (.list (first ++ otherContent :: second))) :
    AlikeBy read (.array (before ++ value :: after)) (.array (before ++ other :: after)) := by
  refine h.alikeBy fun content otherContent hcontent hother => ?_
  rw [content?, Option.map_eq_some_iff] at hcontent hother
  obtain ⟨contents, hcontents, rfl⟩ := hcontent
  obtain ⟨contents', hcontents', rfl⟩ := hother
  obtain ⟨first, more, hfirst, hmore, rfl⟩ := contents?_append_eq_some_iff.mp hcontents
  obtain ⟨first', more', hfirst', hmore', rfl⟩ := contents?_append_eq_some_iff.mp hcontents'
  obtain ⟨x, second, hx, hsecond, rfl⟩ := contents?_cons_eq_some_iff.mp hmore
  obtain ⟨y, second', hy, hsecond', rfl⟩ := contents?_cons_eq_some_iff.mp hmore'
  cases hfirst.symm.trans hfirst'
  cases hsecond.symm.trans hsecond'
  exact hread first second x y (length_contents? hfirst) hx hy

/-! Records of two fields. -/

section Pair

variable {γ : Type} {readSecond : Content → γ} {first second : String}

theorem alikeBy_readPair_extended {before after : List (String × Json)} {name : String}
    (hne : first ≠ second) (hname : name ∉ [first, second])
    (h : Relaid place (.object (before ++ after)) (.object (before ++ (name, value) :: after))) :
    AlikeBy (Content.readPair first second read readSecond) (.object (before ++ after))
      (.object (before ++ (name, value) :: after)) :=
  alikeBy_extended h (Content.readPair_extended hne hname)

theorem alikeBy_readPair_member {before after : List (String × Json)} {name : String}
    (hne : first ≠ second)
    (h : Relaid place (.object (before ++ (name, value) :: after))
      (.object (before ++ (name, other) :: after)))
    (hfirst : name = first → AlikeBy read value other)
    (hsecond : name = second → AlikeBy readSecond value other) :
    AlikeBy (Content.readPair first second read readSecond)
      (.object (before ++ (name, value) :: after)) (.object (before ++ (name, other) :: after)) :=
  alikeBy_member h fun _ _ _ _ hvalue hother =>
    Content.readPair_member hne (fun hname => (hfirst hname).eq hvalue hother)
      (fun hname => (hsecond hname).eq hvalue hother) _ _

theorem alikeBy_readPair_item {before after : List Json}
    (h : Relaid place (.array (before ++ value :: after)) (.array (before ++ other :: after)))
    (hfirst : before.length = 0 → AlikeBy read value other)
    (hsecond : before.length = 1 → AlikeBy readSecond value other) :
    AlikeBy (Content.readPair first second read readSecond) (.array (before ++ value :: after))
      (.array (before ++ other :: after)) :=
  alikeBy_item h fun _ _ _ _ hlength hvalue hother =>
    Content.readPair_item _ _ (fun hposition => (hfirst (hlength ▸ hposition)).eq hvalue hother)
      fun hposition => (hsecond (hlength ▸ hposition)).eq hvalue hother

end Pair

theorem AlikeBy.map {γ : Type} (h : AlikeBy read value other) (next : β → γ) :
    AlikeBy (fun content => next (read content)) value other := by
  have hmap := congrArg (Option.map next) h
  simpa only [AlikeBy, Option.map_map, Function.comp_def] using hmap

/-- Neither an array nor an object is a text. -/
theorem SameShape.text?_eq_none (h : SameShape value other) {content : Content}
    (hcontent : value.content? = some content) : content.text? = none := by
  cases h with
  | array items others =>
      obtain ⟨contents, _, rfl⟩ := Option.map_eq_some_iff.mp hcontent
      rfl
  | object members others =>
      obtain ⟨entries, _, rfl⟩ := Option.map_eq_some_iff.mp hcontent
      rfl

theorem SameShape.literal?_eq_none (h : SameShape value other) {content : Content}
    (hcontent : value.content? = some content) : LiteralValue.ofContent? content = none := by
  cases h with
  | array items others =>
      obtain ⟨contents, _, rfl⟩ := Option.map_eq_some_iff.mp hcontent
      rfl
  | object members others =>
      obtain ⟨entries, _, rfl⟩ := Option.map_eq_some_iff.mp hcontent
      rfl

theorem SameShape.symm (h : SameShape value other) : SameShape other value := by
  cases h with
  | array items others => exact .array others items
  | object members others => exact .object others members

theorem Relaid.alikeBy_text (h : Relaid place value other) :
    AlikeBy Content.text? value other :=
  h.alikeBy fun _ _ hvalue hother =>
    (h.sameShape.text?_eq_none hvalue).trans (h.sameShape.symm.text?_eq_none hother).symm

theorem Relaid.alikeBy_literal (h : Relaid place value other) :
    AlikeBy LiteralValue.ofContent? value other :=
  h.alikeBy fun _ _ hvalue hother =>
    (h.sameShape.literal?_eq_none hvalue).trans (h.sameShape.symm.literal?_eq_none hother).symm

theorem Relaid.alikeBy_texts (h : Relaid place value other) :
    AlikeBy Content.texts? value other := by
  have hrelaid := h
  cases h with
  | item before after hvalue =>
      refine alikeBy_item hrelaid fun first second content otherContent _ hcontent hother => ?_
      have htext := hvalue.sameShape.text?_eq_none hcontent
      have hotherText := hvalue.sameShape.symm.text?_eq_none hother
      simp [Content.texts?, List.mapM_append, List.mapM_cons, htext, hotherText]
  | _ => exact hrelaid.alikeBy_objects fun _ _ => rfl

end Json

/-! Attachments. -/

def EnumTag.ofPair? : Option (Option String) × Option (Option (List String)) → Option EnumTag
  | (some (some name), some (some values)) => some ⟨name, values⟩
  | _ => none

theorem EnumTag.ofContent?_eq (content : Content) :
    EnumTag.ofContent? content =
      (content.readPair "name" "values" Content.text? Content.texts?).bind EnumTag.ofPair? := by
  unfold EnumTag.ofContent? Content.readPair
  cases content.fields? ["name", "values"] with
  | none => rfl
  | some fields =>
      rcases fields with _ | ⟨x, _ | ⟨y, _ | ⟨z, rest⟩⟩⟩
      · rfl
      · cases x <;> rfl
      · cases x with
        | none => cases y <;> rfl
        | some x =>
            cases y with
            | none => simp [EnumTag.ofPair?]
            | some y => cases hname : x.text? <;> cases hvalues : y.texts? <;>
                simp [hname, hvalues, EnumTag.ofPair?]
      · cases x <;> cases y <;> rfl

open Json (Relaid AlikeBy)

variable {value other : Json}

/-- An enum tag is the same after a change of its layout. -/
theorem EnumTag.alikeBy (h : Relaid .enumTag value other) :
    AlikeBy EnumTag.ofContent? value other := by
  have hpair : AlikeBy (Content.readPair "name" "values" Content.text? Content.texts?) value
      other := by
    have hrelaid := h
    cases h with
    | reordered _ hperm =>
        exact Json.alikeBy_reordered hperm fun _ _ => Content.readPair_perm (by decide)
    | extended before after _ hname _ =>
        exact Json.alikeBy_readPair_extended (by decide) hname hrelaid
    | member before after name hvalue =>
        exact Json.alikeBy_readPair_member (by decide) hrelaid (fun _ => hvalue.alikeBy_text)
          fun _ => hvalue.alikeBy_texts
    | item before after hvalue =>
        exact Json.alikeBy_readPair_item hrelaid (fun _ => hvalue.alikeBy_text)
          fun _ => hvalue.alikeBy_texts
  rw [funext EnumTag.ofContent?_eq]
  exact hpair.map (Option.bind · EnumTag.ofPair?)

/-- What a mapping with a single entry is read as depends on no order, and any other is refused. -/
theorem Json.alikeBy_single_reordered {β : Type} {read : Content → β} {result : β}
    (hread : ∀ named, named.length ≠ 1 → read (.mapping named) = result)
    {members others : List (String × Json)} (hperm : members.Perm others) :
    AlikeBy read (.object members) (.object others) := by
  refine alikeBy_reordered hperm fun named renamed h => ?_
  by_cases hlength : named.length = 1
  · obtain ⟨entry, rfl⟩ := List.length_eq_one_iff.mp hlength
    rw [List.singleton_perm.mp h]
  · rw [hread _ (by simpa [textEntries] using hlength),
      hread _ (by simpa [textEntries, ← h.length_eq] using hlength)]

theorem Json.alikeBy_single_member {β : Type} {read : Content → β} {result : β} {place : Place}
    (hread : ∀ named, named.length ≠ 1 → read (.mapping named) = result)
    {before after : List (String × Json)} {name : String}
    (h : Relaid place (.object (before ++ (name, value) :: after))
      (.object (before ++ (name, other) :: after)))
    (hsingle : ∀ content otherContent, value.content? = some content →
      other.content? = some otherContent → read (.mapping [(.text name, content)]) =
        read (.mapping [(.text name, otherContent)])) :
    AlikeBy read (.object (before ++ (name, value) :: after))
      (.object (before ++ (name, other) :: after)) := by
  refine alikeBy_member h fun first second content otherContent hcontent hother => ?_
  match first, second with
  | [], [] => exact hsingle content otherContent hcontent hother
  | [], _ :: _ => rw [hread _ (by simp [textEntries]), hread _ (by simp [textEntries])]
  | _ :: _, _ => rw [hread _ (by simp [textEntries]), hread _ (by simp [textEntries])]

theorem Attachment.ofContent?_of_length {entries : List (Content × Content)}
    (h : entries.length ≠ 1) : Attachment.ofContent? (.mapping entries) = none := by
  match entries, h with
  | [], _ => rfl
  | _ :: _ :: _, _ => rfl

theorem Attachment.alikeBy (h : Relaid .attachment value other) :
    AlikeBy Attachment.ofContent? value other := by
  have hrelaid := h
  cases h with
  | reordered _ hperm =>
      exact Json.alikeBy_single_reordered (fun _ => Attachment.ofContent?_of_length) hperm
  | extended _ _ hopen _ _ => cases hopen
  | item before after hvalue => exact hrelaid.alikeBy_arrays fun _ _ => rfl
  | member before after name hvalue =>
      refine Json.alikeBy_single_member (fun _ => Attachment.ofContent?_of_length) hrelaid ?_
      intro content otherContent hcontent hother
      have htext := hvalue.alikeBy_text.eq hcontent hother
      have htag : Content.keyPosition? ["enum", "note"] (.text name) = some (some 0) →
          EnumTag.ofContent? content = EnumTag.ofContent? otherContent := by
        intro hkey
        rw [Place.member, hkey] at hvalue
        exact (EnumTag.alikeBy hvalue).eq hcontent hother
      simp only [Attachment.ofContent?]
      split
      · rename_i hkey
        rw [htag hkey]
      · rw [htext]
      · rfl

theorem Attachment.listOfContent?_alikeBy (h : Relaid .attachmentList value other) :
    AlikeBy Attachment.listOfContent? value other := by
  have hrelaid := h
  cases h with
  | item before after hvalue =>
      refine Json.alikeBy_item hrelaid fun first second content otherContent _ hcontent hother => ?_
      simp only [Attachment.listOfContent?, List.mapM_append, List.mapM_cons,
        (Attachment.alikeBy hvalue).eq hcontent hother]
  | _ => exact hrelaid.alikeBy_objects fun _ _ => rfl

/-! Type expressions. -/

/-- Values in entries may be read before or after the fields are filled. -/
theorem Content.fillFields?_map {α β : Type} (read : α → β) (names : List String)
    (fields : List (Option α)) (entries : List (Content × α)) :
    fillFields? names (fields.map (Option.map read))
        (entries.map fun entry => (entry.1, read entry.2)) =
      (fillFields? names fields entries).map (List.map (Option.map read)) := by
  induction entries generalizing fields with
  | nil => rfl
  | cons entry rest ih =>
      obtain ⟨key, value⟩ := entry
      rw [List.map_cons, fillFields?, fillFields?]
      match keyPosition? names key with
      | none => rfl
      | some none => exact ih fields
      | some (some position) =>
          simp only [List.getElem?_map]
          match fields[position]? with
          | none => rfl
          | some (some found) => rfl
          | some none =>
              have hset := ih (fields.set position (some value))
              rwa [List.map_set] at hset

theorem Content.fieldsOfItems?_map {α β : Type} (read : α → β) (names : List String)
    (items : List α) : fieldsOfItems? names (items.map read) =
      (fieldsOfItems? names items).map (List.map (Option.map read)) := by
  rw [fieldsOfItems?, fieldsOfItems?, List.length_map]
  split
  · simp [Function.comp_def]
  · rfl

namespace TypeExpr

/-- The annotated type of its type and its attachments, which may be missing. -/
def annotatedOfPair? :
    Option (Option TypeExpr) × Option (Option (List Attachment)) → Option TypeExpr
  | (some (some inner), none) => some (.annotated inner [])
  | (some (some inner), some (some attachments)) => some (.annotated inner attachments)
  | _ => none

def annotatedOfContent? (content : Content) : Option TypeExpr :=
  (content.readPair "type" "meta" ofContent? Attachment.listOfContent?).bind annotatedOfPair?

def listed? : Content → Option (List (Option TypeExpr))
  | .list items => some (items.map ofContent?)
  | _ => none

def ofCompound? (content : Content) : Compound → Option TypeExpr
  | .list => (ofContent? content).map .list
  | .dict => (listed? content).bind dictOf?
  | .union => (listed? content).bind unionOf?
  | .optional => (ofContent? content).map .optional
  | .literal => (LiteralValue.ofContent? content).map .literal
  | .model => content.text?.map fun path => .model ⟨path⟩
  | .annotated => annotatedOfContent? content

/-- The annotated type of the fields that are filled. -/
theorem annotatedOf?_map (fields : Option (List (Option Content))) :
    annotatedOf? (fields.map (List.map (Option.map fun content => (content, ofContent? content)))) =
      (match fields with
        | some [x, y] => some (x.map ofContent?, y.map Attachment.listOfContent?)
        | _ => none).bind annotatedOfPair? := by
  rcases fields with _ | _ | ⟨x, _ | ⟨y, _ | ⟨z, rest⟩⟩⟩
  · rfl
  · rfl
  · cases x with
    | none => rfl
    | some x => cases hx : ofContent? x <;> simp [annotatedOf?, hx]
  · cases x with
    | none => cases y <;> rfl
    | some x =>
        cases hx : ofContent? x with
        | none => cases y <;> simp [annotatedOf?, annotatedOfPair?, hx]
        | some inner =>
            cases y with
            | none => simp [annotatedOf?, annotatedOfPair?, hx]
            | some y => cases hy : Attachment.listOfContent? y <;>
                simp [annotatedOf?, annotatedOfPair?, hx, hy]
  · rcases x with _ | x
    · rfl
    · cases hx : ofContent? x <;> cases y <;> cases z <;> simp [annotatedOf?, hx]

theorem ofContent?_single (key value : Content) :
    ofContent? (.mapping [(key, value)]) = (Compound.ofKey? key).bind (ofCompound? value) := by
  rw [ofContent?.eq_def]
  cases hkey : Compound.ofKey? key with
  | none => simp only [hkey]; rfl
  | some form =>
      simp only [hkey]
      cases form
      case annotated =>
        change _ = annotatedOfContent? value
        rw [annotatedOfContent?, Content.readPair, ← annotatedOf?_map]
        cases value with
        | list items =>
            rw [Content.fields?, ← Content.fieldsOfItems?_map]
            simp only [itemTypes_eq_map, List.map_prod_left_eq_zip]
            rfl
        | mapping entries =>
            rw [Content.fields?, Content.fieldsOfEntries?, ← Content.fillFields?_map]
            simp only [entryTypes_eq_map]
            rfl
        | _ => rfl
      case dict => cases value <;> simp [ofCompound?, listed?, itemTypes_eq_map]
      case union => cases value <;> simp [ofCompound?, listed?, itemTypes_eq_map]
      all_goals rfl

theorem ofContent?_of_length {entries : List (Content × Content)} (h : entries.length ≠ 1) :
    ofContent? (.mapping entries) = none := by
  match entries, h with
  | [], _ => rfl
  | _ :: _ :: _, _ => rfl

/-- What is the same after a change of the layout of a type, or of a part of one. -/
def Same : Place → Json → Json → Prop
  | .typeExpr => AlikeBy ofContent?
  | .typeList => AlikeBy listed?
  | .annotated => AlikeBy annotatedOfContent?
  | _ => fun _ _ => True

/-- A compound is the same if what it is made of is the same. -/
theorem ofCompound?_eq {name : String} {form : Compound}
    (hform : Compound.ofKey? (.text name) = some form)
    (h : Relaid (Place.typeExpr.member name) value other)
    (hsame : Same (Place.typeExpr.member name) value other) {content otherContent : Content}
    (hcontent : value.content? = some content) (hother : other.content? = some otherContent) :
    ofCompound? content form = ofCompound? otherContent form := by
  have hliteral := h.alikeBy_literal.eq hcontent hother
  have htext := h.alikeBy_text.eq hcontent hother
  rw [Place.member, hform] at hsame
  cases form
  case list => exact congrArg (Option.map TypeExpr.list) (AlikeBy.eq hsame hcontent hother)
  case optional => exact congrArg (Option.map TypeExpr.optional) (AlikeBy.eq hsame hcontent hother)
  case dict => exact congrArg (Option.bind · dictOf?) (AlikeBy.eq hsame hcontent hother)
  case union => exact congrArg (Option.bind · unionOf?) (AlikeBy.eq hsame hcontent hother)
  case annotated => exact AlikeBy.eq hsame hcontent hother
  case literal => rw [ofCompound?, ofCompound?, hliteral]
  case model => rw [ofCompound?, ofCompound?, htext]

/-! Each kind of change, at each place of a type. -/

theorem same_reordered {place : Place} {members others : List (String × Json)}
    (h : Relaid place (.object members) (.object others)) (hperm : members.Perm others) :
    Same place (.object members) (.object others) := by
  cases place
  case typeExpr => exact Json.alikeBy_single_reordered (fun _ => ofContent?_of_length) hperm
  case typeList => exact h.alikeBy_objects fun _ _ => rfl
  case annotated =>
    exact (Json.alikeBy_reordered hperm fun _ _ => Content.readPair_perm (by decide)).map
      (Option.bind · annotatedOfPair?)
  all_goals trivial

theorem same_extended {place : Place} {before after : List (String × Json)} {name : String}
    (h : Relaid place (.object (before ++ after)) (.object (before ++ (name, value) :: after)))
    (hopen : place.isOpen = true) (hname : name ∉ place.names) :
    Same place (.object (before ++ after)) (.object (before ++ (name, value) :: after)) := by
  cases place
  case typeExpr => cases hopen
  case typeList => cases hopen
  case annotated =>
    exact (Json.alikeBy_readPair_extended (by decide) hname h).map
      (Option.bind · annotatedOfPair?)
  all_goals trivial

theorem same_member {place : Place} {before after : List (String × Json)} {name : String}
    (hvalue : Relaid (place.member name) value other)
    (hsame : Same (place.member name) value other) :
    Same place (.object (before ++ (name, value) :: after))
      (.object (before ++ (name, other) :: after)) := by
  have h : Relaid place (.object (before ++ (name, value) :: after))
      (.object (before ++ (name, other) :: after)) := .member before after name hvalue
  cases place
  case typeExpr =>
    refine Json.alikeBy_single_member (fun _ => ofContent?_of_length) h ?_
    intro content otherContent hcontent hother
    rw [ofContent?_single, ofContent?_single]
    cases hform : Compound.ofKey? (.text name) with
    | none => rfl
    | some form => exact ofCompound?_eq hform hvalue hsame hcontent hother
  case typeList => exact h.alikeBy_objects fun _ _ => rfl
  case annotated =>
    refine (Json.alikeBy_readPair_member (by decide) h ?_ ?_).map
      (Option.bind · annotatedOfPair?)
    · rintro rfl
      exact hsame
    · rintro rfl
      exact Attachment.listOfContent?_alikeBy hvalue
  all_goals trivial

theorem same_item {place : Place} {before after : List Json}
    (hvalue : Relaid (place.item before.length) value other)
    (hsame : Same (place.item before.length) value other) :
    Same place (.array (before ++ value :: after)) (.array (before ++ other :: after)) := by
  have h : Relaid place (.array (before ++ value :: after)) (.array (before ++ other :: after)) :=
    .item before after hvalue
  cases place
  case typeExpr => exact h.alikeBy_arrays fun _ _ => rfl
  case typeList =>
    refine Json.alikeBy_item h fun first second content otherContent _ hcontent hother => ?_
    simp only [listed?, List.map_append, List.map_cons,
      AlikeBy.eq (hsame : AlikeBy ofContent? value other) hcontent hother]
  case annotated =>
    refine (Json.alikeBy_readPair_item h ?_ ?_).map (Option.bind · annotatedOfPair?)
    · intro hposition
      rw [hposition] at hsame
      exact hsame
    · intro hposition
      rw [hposition] at hvalue
      exact Attachment.listOfContent?_alikeBy hvalue
  all_goals trivial

/-- A type expression is the same after a change of its layout. -/
theorem same {place : Place} (h : Relaid place value other) : Same place value other := by
  induction h with
  | reordered hdistinct hperm => exact same_reordered (.reordered hdistinct hperm) hperm
  | extended before after hopen hname hwhole =>
      exact same_extended (.extended before after hopen hname hwhole) hopen hname
  | member before after name hvalue ih => exact same_member hvalue ih
  | item before after hvalue ih => exact same_item hvalue ih

end TypeExpr

end SchemaWire
