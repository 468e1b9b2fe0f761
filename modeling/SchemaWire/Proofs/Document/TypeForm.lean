import Mathlib.Data.List.Forall2
import SchemaWire.Document.OfJson
import SchemaWire.Proofs.Result

/-!
Type expressions as they are written in JSON. `WrittenAs` lists the forms of an expression: a bare
name, or an object with a single member that names the compound. The main statement is that an
expression is read from every form in which it can be written; every expression has one, which
`toJson` gives.
-/
namespace SchemaWire

namespace Json

/-- The object of two members, in either order. -/
def IsPair (record : Json) (first second : String × Json) : Prop :=
  record = .object [first, second] ∨ record = .object [second, first]

theorem contents?_of_forall₂ {items : List Json} {contents : List Content}
    (h : List.Forall₂ (fun item content => item.content? = some content) items contents) :
    contents? items = some contents := by
  induction h with
  | nil => rfl
  | cons hhead _ ih => simp [contents?, hhead, ih]

theorem content?_array {items : List Json} {contents : List Content}
    (h : List.Forall₂ (fun item content => item.content? = some content) items contents) :
    (Json.array items).content? = some (.list contents) := by
  rw [content?, contents?_of_forall₂ h]
  rfl

theorem content?_single {name : String} {value : Json} {content : Content}
    (h : value.content? = some content) :
    (Json.object [(name, value)]).content? = some (.mapping [(.text name, content)]) := by
  simp [content?, memberContents?, h]

/-- The value of a pair of members has its two entries, in one order or in the other. -/
theorem IsPair.content? {record : Json} {first second : String × Json}
    {firstContent secondContent : Content} (h : record.IsPair first second)
    (hfirst : first.2.content? = some firstContent)
    (hsecond : second.2.content? = some secondContent) :
    record.content? =
        some (.mapping [(.text first.1, firstContent), (.text second.1, secondContent)]) ∨
      record.content? =
        some (.mapping [(.text second.1, secondContent), (.text first.1, firstContent)]) := by
  rcases h with rfl | rfl
  · exact Or.inl (by simp [Json.content?, memberContents?, hfirst, hsecond])
  · exact Or.inr (by simp [Json.content?, memberContents?, hfirst, hsecond])

end Json

namespace Content

/-- The two fields of a record are found in either order. -/
theorem fieldsOfEntries?_pair {α : Type} {first second : String} (hne : first ≠ second)
    (x y : α) :
    fieldsOfEntries? [first, second] [(.text first, x), (.text second, y)] =
        some [some x, some y] ∧
      fieldsOfEntries? [first, second] [(.text second, y), (.text first, x)] =
        some [some x, some y] := by
  have hfirst : keyPosition? [first, second] (.text first) = some (some 0) := by
    simp [keyPosition?, positionOf?, List.findIdx?_cons]
  have hsecond : keyPosition? [first, second] (.text second) = some (some 1) := by
    simp [keyPosition?, positionOf?, List.findIdx?_cons, hne]
  simp [fieldsOfEntries?, fillFields?, hfirst, hsecond]

theorem fieldsOfEntries?_single {α : Type} (first second : String) (x : α) :
    fieldsOfEntries? [first, second] [(.text first, x)] = some [some x, none] := by
  have hfirst : keyPosition? [first, second] (.text first) = some (some 0) := by
    simp [keyPosition?, positionOf?, List.findIdx?_cons]
  simp [fieldsOfEntries?, fillFields?, hfirst]

end Content

namespace LiteralValue

def toJson : LiteralValue → Json
  | bool value => .bool value
  | int value => .int value.toInt
  | str text => .string text
  | null => .null

/-- A literal is read as it is written. -/
theorem exists_content (literal : LiteralValue) :
    ∃ content, literal.toJson.content? = some content ∧
      LiteralValue.ofContent? content = some literal := by
  cases literal with
  | bool value => exact ⟨.bool value, rfl, rfl⟩
  | int value =>
      refine ⟨.int value.toInt, rfl, ?_⟩
      simp [ofContent?]
  | str text => exact ⟨.text text, rfl, rfl⟩
  | null => exact ⟨.null, rfl, rfl⟩

theorem ofJson_toJson (literal : LiteralValue) :
    LiteralValue.ofJson literal.toJson = .ok literal := by
  obtain ⟨content, hcontent, hliteral⟩ := literal.exists_content
  simp [LiteralValue.ofJson, Json.readContent, hcontent, hliteral, bind, Except.bind, pure,
    Except.pure]

end LiteralValue

inductive Attachment.WrittenAs : Attachment → Json → Prop where
  | enum {tag : EnumTag} {record : Json}
      (hrecord : record.IsPair ("name", .string tag.name)
        ("values", .array (tag.values.map Json.string))) :
      Attachment.WrittenAs (.enum tag) (.object [("enum", record)])
  | note (text : String) : Attachment.WrittenAs (.note text) (.object [("note", .string text)])

theorem Content.texts?_list (values : List String) :
    Content.texts? (.list (values.map Content.text)) = some values := by
  rw [texts?]
  induction values with
  | nil => rfl
  | cons value rest ih => rw [List.map_cons, List.mapM_cons, ih]; rfl

namespace EnumTag

theorem ofContent?_of_isPair {tag : EnumTag} {record : Json}
    (h : record.IsPair ("name", .string tag.name) ("values", .array (tag.values.map Json.string))) :
    ∃ content, record.content? = some content ∧ EnumTag.ofContent? content = some tag := by
  have hvalues : (Json.array (tag.values.map Json.string)).content? =
      some (.list (tag.values.map Content.text)) := by
    refine Json.content?_array ?_
    rw [List.forall₂_map_left_iff, List.forall₂_map_right_iff, List.forall₂_same]
    exact fun value _ => rfl
  have hread : ∀ content, (content.fields? ["name", "values"]) =
      some [some (.text tag.name), some (.list (tag.values.map Content.text))] →
        EnumTag.ofContent? content = some tag := by
    intro content hfields
    simp [EnumTag.ofContent?, hfields, Content.text?, Content.texts?_list]
  obtain ⟨horder, hreverse⟩ := @Content.fieldsOfEntries?_pair _ "name" "values" (by decide)
    (Content.text tag.name) (Content.list (tag.values.map Content.text))
  rcases h.content? rfl hvalues with hcontent | hcontent
  · exact ⟨_, hcontent, hread _ horder⟩
  · exact ⟨_, hcontent, hread _ hreverse⟩

end EnumTag

namespace Attachment

def toJson : Attachment → Json
  | enum tag => .object [("enum",
      .object [("name", .string tag.name), ("values", .array (tag.values.map Json.string))])]
  | note text => .object [("note", .string text)]

theorem writtenAs_toJson (attachment : Attachment) : attachment.WrittenAs attachment.toJson := by
  cases attachment with
  | enum tag => exact .enum (Or.inl rfl)
  | note text => exact .note text

theorem WrittenAs.exists_content {attachment : Attachment} {json : Json}
    (h : attachment.WrittenAs json) :
    ∃ content, json.content? = some content ∧ Attachment.ofContent? content = some attachment := by
  cases h with
  | enum hrecord =>
      obtain ⟨content, hcontent, htag⟩ := EnumTag.ofContent?_of_isPair hrecord
      have hkey : Content.keyPosition? ["enum", "note"] (.text "enum") = some (some 0) := by
        decide +kernel
      refine ⟨_, Json.content?_single hcontent, ?_⟩
      simp [ofContent?, hkey, htag]
  | note text =>
      have hkey : Content.keyPosition? ["enum", "note"] (.text "note") = some (some 1) := by
        decide +kernel
      refine ⟨_, Json.content?_single rfl, ?_⟩
      simp [ofContent?, hkey, Content.text?]

end Attachment

/-- Every form of a list of attachments is read as that list. -/
theorem Attachment.exists_contents {attachments : List Attachment} {jsons : List Json}
    (h : List.Forall₂ Attachment.WrittenAs attachments jsons) :
    ∃ content, (Json.array jsons).content? = some content ∧
      Attachment.listOfContent? content = some attachments := by
  have hcontents : ∃ contents,
      List.Forall₂ (fun json content => json.content? = some content) jsons contents ∧
        contents.mapM Attachment.ofContent? = some attachments := by
    induction h with
    | nil => exact ⟨[], .nil, rfl⟩
    | cons hhead _ ih =>
        obtain ⟨content, hcontent, hattachment⟩ := hhead.exists_content
        obtain ⟨contents, hrest, hothers⟩ := ih
        exact ⟨content :: contents, .cons hcontent hrest, by simp [hattachment, hothers]⟩
  obtain ⟨contents, hall, hread⟩ := hcontents
  exact ⟨_, Json.content?_array hall, hread⟩

theorem Compound.ofKey?_name (form : Compound) :
    Compound.ofKey? (.text form.name) = some form := by
  cases form <;> decide +kernel

namespace TypeExpr

/-- The forms of a type expression. A keyword and the path of a model may stand alone, with blanks
around them; the path of a model then must not read as a keyword. -/
inductive WrittenAs : TypeExpr → Json → Prop where
  | keyword {kind : PrimitiveKind} {word : String} (hword : Text.trim word = kind.keyword) :
      WrittenAs (.primitive kind) (.string word)
  | bare {word : String} (hblank : Text.trim word ≠ "")
      (hword : PrimitiveKind.ofKeyword? (Text.trim word) = none) :
      WrittenAs (.model ⟨Text.trim word⟩) (.string word)
  | model (path : ModelPath) :
      WrittenAs (.model path) (.object [("model", .string path.text)])
  | literal (value : LiteralValue) :
      WrittenAs (.literal value) (.object [("literal", value.toJson)])
  | list {element : TypeExpr} {json : Json} (helement : WrittenAs element json) :
      WrittenAs (.list element) (.object [("list", json)])
  | dict {key value : TypeExpr} {keyJson valueJson : Json} (hkey : WrittenAs key keyJson)
      (hvalue : WrittenAs value valueJson) :
      WrittenAs (.dict key value) (.object [("dict", .array [keyJson, valueJson])])
  | union {members : List TypeExpr} {jsons : List Json} (hlength : members.length = jsons.length)
      (hmembers : ∀ pair ∈ members.zip jsons, WrittenAs pair.1 pair.2) :
      WrittenAs (.union members) (.object [("union", .array jsons)])
  | optional {inner : TypeExpr} {json : Json} (hinner : WrittenAs inner json) :
      WrittenAs (.union [inner, .primitive .absence]) (.object [("optional", json)])
  | annotated {inner : TypeExpr} {attachments : List Attachment} {json record : Json}
      {jsons : List Json} (hinner : WrittenAs inner json)
      (hattachments : List.Forall₂ Attachment.WrittenAs attachments jsons)
      (hrecord : record.IsPair ("type", json) ("meta", .array jsons)) :
      WrittenAs (.annotated inner attachments) (.object [("annotated", record)])
  | unattached {inner : TypeExpr} {json : Json} (hinner : WrittenAs inner json) :
      WrittenAs (.annotated inner []) (.object [("annotated", .object [("type", json)])])

/-- A compound with a value that is read gives the expression made of it. -/
theorem exists_content_single (form : Compound) {value : Json} {content : Content} {ty : TypeExpr}
    (hvalue : value.content? = some content)
    (hty : ofContent? (.mapping [(.text form.name, content)]) = some ty) :
    ∃ content, (Json.object [(form.name, value)]).content? = some content ∧
      ofContent? content = some ty :=
  ⟨_, Json.content?_single hvalue, hty⟩

/-- The record of an annotated type, with its two fields in either order. -/
theorem exists_content_annotated {inner : TypeExpr} {attachments : List Attachment}
    {json metas record : Json} (hrecord : record.IsPair ("type", json) ("meta", metas))
    {content metaContent : Content} (hcontent : json.content? = some content)
    (hinner : ofContent? content = some inner) (hmetas : metas.content? = some metaContent)
    (hattachments : Attachment.listOfContent? metaContent = some attachments) :
    ∃ content, record.content? = some content ∧
      ofContent? (.mapping [(.text Compound.annotated.name, content)]) =
        some (.annotated inner attachments) := by
  obtain ⟨horder, hreverse⟩ := @Content.fieldsOfEntries?_pair _ "type" "meta" (by decide)
    (content, some inner) (metaContent, ofContent? metaContent)
  rcases hrecord.content? hcontent hmetas with hread | hread
  · refine ⟨_, hread, ?_⟩
    simp [ofContent?, Compound.ofKey?_name, entryTypes, annotatedFields, hinner, horder,
      annotatedOf?, hattachments]
  · refine ⟨_, hread, ?_⟩
    simp [ofContent?, Compound.ofKey?_name, entryTypes, annotatedFields, hinner, hreverse,
      annotatedOf?, hattachments]

/-- The members of a union are read one by one. -/
theorem exists_contents {members : List TypeExpr} {jsons : List Json}
    (hlength : members.length = jsons.length)
    (hread : ∀ pair ∈ members.zip jsons, ∃ content, pair.2.content? = some content ∧
      ofContent? content = some pair.1) :
    ∃ contents, (Json.array jsons).content? = some (.list contents) ∧
      contents.map ofContent? = members.map some := by
  have hall : List.Forall₂ (fun member (json : Json) => ∃ content, json.content? = some content ∧
      ofContent? content = some member) members jsons :=
    List.forall₂_iff_zip.mpr ⟨hlength, fun hmem => hread _ hmem⟩
  have hcontents : ∃ contents,
      List.Forall₂ (fun json content => json.content? = some content) jsons contents ∧
        contents.map ofContent? = members.map some := by
    clear hlength hread
    induction hall with
    | nil => exact ⟨[], .nil, rfl⟩
    | cons hhead _ ih =>
        obtain ⟨content, hcontent, hmember⟩ := hhead
        obtain ⟨contents, hrest, hothers⟩ := ih
        exact ⟨content :: contents, .cons hcontent hrest, by simp [hmember, hothers]⟩
  obtain ⟨contents, hjsons, hmembers⟩ := hcontents
  exact ⟨contents, Json.content?_array hjsons, hmembers⟩

theorem unionOf?_map_some (members : List TypeExpr) :
    unionOf? (members.map some) = some (.union members) := by
  have hmembers : (members.map some).mapM id = some members := by
    induction members with
    | nil => rfl
    | cons member rest ih => rw [List.map_cons, List.mapM_cons, ih]; rfl
  rw [unionOf?, hmembers]
  rfl

/-- An expression is read from every form in which it can be written. -/
theorem WrittenAs.exists_content {ty : TypeExpr} {json : Json} (h : ty.WrittenAs json) :
    ∃ content, json.content? = some content ∧ TypeExpr.ofContent? content = some ty := by
  induction h with
  | @keyword kind word hword =>
      refine ⟨.text word, rfl, ?_⟩
      have hne : kind.keyword ≠ "" := by cases kind <;> decide
      simp [ofContent?, ofName?, hword, hne, PrimitiveKind.ofKeyword?_keyword]
  | @bare word hblank hword =>
      refine ⟨.text word, rfl, ?_⟩
      simp [ofContent?, ofName?, hblank, hword]
  | model path =>
      refine exists_content_single .model rfl ?_
      simp [ofContent?, Compound.ofKey?_name, Content.text?]
  | literal value =>
      obtain ⟨content, hcontent, hvalue⟩ := value.exists_content
      refine exists_content_single .literal hcontent ?_
      simp [ofContent?, Compound.ofKey?_name, hvalue]
  | list _ ih =>
      obtain ⟨content, hcontent, helement⟩ := ih
      refine exists_content_single .list hcontent ?_
      simp [ofContent?, Compound.ofKey?_name, helement]
  | dict _ _ ihKey ihValue =>
      obtain ⟨keyContent, hkeyContent, hkey⟩ := ihKey
      obtain ⟨valueContent, hvalueContent, hvalue⟩ := ihValue
      refine exists_content_single .dict
        (Json.content?_array (.cons hkeyContent (.cons hvalueContent .nil))) ?_
      simp [ofContent?, Compound.ofKey?_name, itemTypes, dictOf?, hkey, hvalue]
  | @union members jsons hlength _ ih =>
      obtain ⟨contents, hcontents, hmembers⟩ := exists_contents hlength ih
      refine exists_content_single .union hcontents ?_
      simp [ofContent?, Compound.ofKey?_name, itemTypes_eq_map, hmembers, unionOf?_map_some]
  | optional _ ih =>
      obtain ⟨content, hcontent, hinner⟩ := ih
      refine exists_content_single .optional hcontent ?_
      simp [ofContent?, Compound.ofKey?_name, hinner, TypeExpr.optional, absence]
  | annotated _ hattachments hrecord ih =>
      obtain ⟨content, hcontent, hinner⟩ := ih
      obtain ⟨metaContent, hmetas, hlist⟩ := Attachment.exists_contents hattachments
      obtain ⟨_, hread, hty⟩ := exists_content_annotated hrecord hcontent hinner hmetas hlist
      exact exists_content_single .annotated hread hty
  | unattached _ ih =>
      obtain ⟨content, hcontent, hinner⟩ := ih
      refine exists_content_single .annotated (Json.content?_single hcontent) ?_
      simp [ofContent?, Compound.ofKey?_name, entryTypes, annotatedFields,
        Content.fieldsOfEntries?_single, annotatedOf?, hinner]

/-- The reader of expressions undoes every way of writing one. -/
theorem WrittenAs.ofJson_eq {ty : TypeExpr} {json : Json} (h : ty.WrittenAs json) :
    TypeExpr.ofJson json = .ok ty := by
  obtain ⟨content, hcontent, hty⟩ := h.exists_content
  simp [TypeExpr.ofJson, Json.readContent, hcontent, hty, bind, Except.bind, pure, Except.pure]

mutual
/-- A form of the expression: keywords stand alone, everything else is named. -/
def toJson : TypeExpr → Json
  | .primitive kind => .string kind.keyword
  | .literal value => .object [("literal", value.toJson)]
  | .list element => .object [("list", element.toJson)]
  | .dict key value => .object [("dict", .array [key.toJson, value.toJson])]
  | .union members => .object [("union", .array (toJsons members))]
  | .annotated inner attachments =>
      .object [("annotated",
        .object [("type", inner.toJson), ("meta", .array (attachments.map Attachment.toJson))])]
  | .model path => .object [("model", .string path.text)]

def toJsons : List TypeExpr → List Json
  | [] => []
  | member :: rest => member.toJson :: toJsons rest
end

/-- Every expression can be written. -/
theorem writtenAs_toJson (ty : TypeExpr) : ty.WrittenAs ty.toJson := by
  -- a union needs the statement for all of its members
  refine (toJson.mutual_induct (fun ty => ty.WrittenAs ty.toJson)
    (fun members => members.length = (toJsons members).length ∧
      ∀ pair ∈ members.zip (toJsons members), pair.1.WrittenAs pair.2)
    ?primitive ?literal ?list ?dict ?union ?annotated ?model ?nil ?cons).1 ty
  case primitive =>
    intro kind
    exact .keyword (by cases kind <;> decide +kernel)
  case literal => exact fun value => .literal value
  case list => exact fun element ih => .list ih
  case dict => exact fun key value ihKey ihValue => .dict ihKey ihValue
  case union => exact fun members ih => .union ih.1 ih.2
  case annotated =>
    intro inner attachments ih
    refine .annotated ih ?_ (Or.inl rfl)
    rw [List.forall₂_map_right_iff, List.forall₂_same]
    exact fun attachment _ => attachment.writtenAs_toJson
  case model => exact fun path => .model path
  case nil => simp [toJsons]
  case cons =>
    rintro member rest ih ⟨hlength, hrest⟩
    refine ⟨by simp [toJsons, hlength], fun pair hpair => ?_⟩
    rcases List.mem_cons.mp hpair with rfl | hin
    · exact ih
    · exact hrest pair hin

end TypeExpr

end SchemaWire
