import SchemaWire.Proofs.Document.RecordForm
import SchemaWire.Proofs.Document.TypeForm
import SchemaWire.Proofs.Index.Enums

/-!
Documents as they are written in JSON. Fields, models, routes and documents are records, the models
of a graph the members of an object under their paths. The main statement is that a document can be
written, and is read again from every form in which it can be written.
-/
namespace SchemaWire

namespace Json

/-- The forms of an optional value that is written as a text. -/
inductive Nullable {α : Type} (text : α → String) : Option α → Json → Prop where
  | text (value : α) : Nullable text (some value) (.string (text value))
  | null : Nullable text none .null

/-- The array of the items in their forms. -/
def ArrayOf {α : Type} (form : α → Json → Prop) (items : List α) (json : Json) : Prop :=
  ∃ jsons, List.Forall₂ form items jsons ∧ json = .array jsons

theorem Nullable.readNullable_eq {α : Type} {text : α → String} {read : Json → Read α}
    {value : Option α} {json : Json} (h : Nullable text value json)
    (hread : ∀ value, read (.string (text value)) = .ok value) :
    json.readNullable read = .ok value := by
  cases h with
  | text value => simp [readNullable, hread, Except.map]
  | null => rfl

theorem placed_map_string {α : Type} (text : α → String) (value : Option α) :
    Placed (Nullable text) none value (value.map fun value => .string (text value)) := by
  cases value with
  | none => exact .leftOut
  | some value => exact .there (.text value)

theorem readItems_of_forall₂ {α : Type} {read : Json → Read α} {items : List α}
    {jsons : List Json} (h : List.Forall₂ (fun item json => read json = .ok item) items jsons) :
    readItems read jsons = .ok items := by
  induction h with
  | nil => rfl
  | cons hhead _ ih => simp [readItems, hhead, ih, bind, Except.bind, pure, Except.pure]

theorem ArrayOf.readArray_eq {α : Type} {form : α → Json → Prop} {read : Json → Read α}
    {items : List α} {json : Json} (h : ArrayOf form items json)
    (hread : ∀ item json, form item json → read json = .ok item) :
    json.readArray read = .ok items := by
  obtain ⟨jsons, hitems, rfl⟩ := h
  exact readItems_of_forall₂ (hitems.imp fun item json => hread item json)

theorem arrayOf_map {α : Type} {form : α → Json → Prop} {toJson : α → Json}
    (h : ∀ item, form item (toJson item)) (items : List α) :
    ArrayOf form items (.array (items.map toJson)) := by
  refine ⟨_, ?_, rfl⟩
  rw [List.forall₂_map_right_iff, List.forall₂_same]
  exact fun item _ => h item

end Json

namespace FieldDef

/-- The fields of a field definition. A default stands there exactly if the field has one, and an
explicit `null` is one. -/
def row (field : FieldDef) (ty : Json) : List (String × Option Json) :=
  [("name", some (.string field.name)), ("type", some ty),
    ("default", field.default.map LiteralValue.toJson)]

def WrittenAs (field : FieldDef) (json : Json) : Prop :=
  ∃ ty, field.ty.WrittenAs ty ∧ Json.LaidOut (field.row ty) json

/-- What is known of a field definition. -/
def part (field : FieldDef) (seen : List String) : FieldPart :=
  ⟨known seen "name" none (some field.name), known seen "type" none (some field.ty),
    known seen "default" none field.default⟩

theorem reads (field : FieldDef) {ty : Json} (hty : field.ty.WrittenAs ty) :
    FieldDef.reader.Reads (field.row ty) field.part field := by
  refine ⟨rfl, by decide, rfl, ?_, ?_⟩
  · intro name value hslot seen
    simp only [row, List.mem_cons, Prod.mk.injEq, List.not_mem_nil, or_false] at hslot
    rcases hslot with ⟨rfl, heq⟩ | ⟨rfl, heq⟩ | ⟨rfl, heq⟩
    · cases heq
      simp [reader, part, known, Json.readString, Except.map]
    · cases heq
      simp [reader, part, known, hty.ofJson_eq, Except.map]
    · obtain ⟨literal, hdefault, rfl⟩ := Option.map_eq_some_iff.mp heq.symm
      simp [reader, part, known, hdefault, literal.ofJson_toJson, Except.map]
  · intro seen hseen
    have hname : known seen "name" none (some field.name) = some field.name :=
      known_eq_of_seen fun _ => hseen _ (.string field.name) (by simp [row])
    have htype : known seen "type" none (some field.ty) = some field.ty :=
      known_eq_of_seen fun _ => hseen _ ty (by simp [row])
    have hdefault : known seen "default" none field.default = field.default := by
      refine known_eq_of_seen fun hne => ?_
      obtain ⟨literal, hliteral⟩ := Option.ne_none_iff_exists'.mp hne
      exact hseen _ literal.toJson (by simp [row, hliteral])
    rw [part, hname, htype, hdefault]
    rfl

theorem WrittenAs.ofJson_eq {field : FieldDef} {json : Json} (h : field.WrittenAs json)
    (source : JsonSource) : FieldDef.ofJson source json = .ok field := by
  obtain ⟨ty, hty, hjson⟩ := h
  exact (field.reads hty).read_eq hjson source

def toJson (field : FieldDef) : Json :=
  .object (Json.present (field.row field.ty.toJson))

theorem writtenAs_toJson (field : FieldDef) : field.WrittenAs field.toJson :=
  ⟨field.ty.toJson, field.ty.writtenAs_toJson, .object (.refl _)⟩

end FieldDef

namespace ModelDef

def WrittenAs (model : ModelDef) (json : Json) : Prop :=
  ∃ fields, Json.Placed (Json.ArrayOf FieldDef.WrittenAs) [] model.fields fields ∧
    Json.LaidOut [("fields", fields)] json

theorem reads (model : ModelDef) (source : JsonSource) {fields : Option Json}
    (hfields : Json.Placed (Json.ArrayOf FieldDef.WrittenAs) [] model.fields fields) :
    (ModelDef.reader source).Reads [("fields", fields)]
      (fun seen => known seen "fields" [] model.fields) model := by
  refine ⟨rfl, List.nodup_singleton _, rfl, ?_, ?_⟩
  · intro name value hslot seen
    simp only [List.mem_singleton, Prod.mk.injEq] at hslot
    obtain ⟨rfl, heq⟩ := hslot
    have hread := (hfields.form_of_eq heq).readArray_eq
      fun field json hfield => hfield.ofJson_eq source
    simp [reader, known, hread]
  · intro seen hseen
    have hknown := hfields.known_eq fun json hjson => hseen "fields" json (by simp [hjson])
    rw [hknown]
    rfl

theorem WrittenAs.ofJson_eq {model : ModelDef} {json : Json} (h : model.WrittenAs json)
    (source : JsonSource) : ModelDef.ofJson source json = .ok model := by
  obtain ⟨fields, hfields, hjson⟩ := h
  exact (model.reads source hfields).read_eq hjson source

def toJson (model : ModelDef) : Json :=
  .object [("fields", .array (model.fields.map FieldDef.toJson))]

theorem writtenAs_toJson (model : ModelDef) : model.WrittenAs model.toJson :=
  ⟨_, .there (Json.arrayOf_map FieldDef.writtenAs_toJson model.fields), .object (.refl _)⟩

end ModelDef

namespace ModelGraph

/-- The forms of a graph: an object of the models under their paths, in any order. -/
def WrittenAs (graph : ModelGraph) (json : Json) : Prop :=
  ∃ entries members, entries.Perm graph.models.entries ∧
    List.Forall₂ (fun entry member => member.1 = entry.1 ∧ entry.2.WrittenAs member.2) entries
      members ∧
    json = .object members

theorem readMembers_eq {source : JsonSource} {entries : List (String × ModelDef)}
    {members : List (String × Json)}
    (h : List.Forall₂ (fun entry member => member.1 = entry.1 ∧ entry.2.WrittenAs member.2) entries
      members) (graph : ModelGraph) :
    readMembers source graph members =
      .ok ⟨entries.foldl (fun models entry => models.insert entry.1 entry.2) graph.models⟩ := by
  induction h generalizing graph with
  | nil => rfl
  | @cons entry member entries members hhead _ ih =>
      obtain ⟨hkey, hmodel⟩ := hhead
      rw [readMembers, hmodel.ofJson_eq source]
      simp [bind, Except.bind, ih, insert, hkey]

theorem WrittenAs.ofJson_eq {graph : ModelGraph} {json : Json} (h : graph.WrittenAs json)
    (source : JsonSource) : ModelGraph.ofJson source json = .ok graph := by
  obtain ⟨entries, members, hperm, hmembers, rfl⟩ := h
  rw [ofJson, readMembers_eq hmembers]
  have hmodels := SortedMap.ofList_eq_of_perm hperm
  exact congrArg (fun models => Except.ok (ModelGraph.mk models)) hmodels

def toJson (graph : ModelGraph) : Json :=
  .object (graph.models.entries.map fun entry => (entry.1, entry.2.toJson))

theorem writtenAs_toJson (graph : ModelGraph) : graph.WrittenAs graph.toJson := by
  refine ⟨graph.models.entries, _, .refl _, ?_, rfl⟩
  rw [List.forall₂_map_right_iff, List.forall₂_same]
  exact fun entry _ => ⟨rfl, entry.2.writtenAs_toJson⟩

end ModelGraph

namespace ModelPath

/-- The path of a model as a root or in a route. -/
def toJson (path : ModelPath) : Json :=
  .string path.text

def WrittenAs (path : ModelPath) (json : Json) : Prop :=
  json = path.toJson

theorem writtenAs_toJson (path : ModelPath) : path.WrittenAs path.toJson :=
  rfl

theorem ofJson_string (path : ModelPath) : ModelPath.ofJson (.string path.text) = .ok path :=
  rfl

theorem WrittenAs.ofJson_eq {path : ModelPath} {json : Json} (h : path.WrittenAs json) :
    ModelPath.ofJson json = .ok path := by
  rw [h, toJson, ofJson_string]

end ModelPath

/-- A method goes by its name in upper or in lower case. -/
theorem HttpMethod.ofJson_eq {method : HttpMethod} {name : String}
    (h : name = method.name ∨ name = method.lowerName) (source : JsonSource) :
    HttpMethod.ofJson source (.string name) = .ok method := by
  have hname : ofName? name = some method := by
    rcases h with rfl | rfl
    · exact method.ofName?_name
    · cases method <;> decide +kernel
  simp [ofJson, readName, hname]

namespace RouteDef

def row (route : RouteDef) (method : String) (name matchInfo body response : Option Json) :
    List (String × Option Json) :=
  [("handler", some (.string route.handler)), ("ts_name", name), ("method", some (.string method)),
    ("path", some (.string route.path)), ("match_info", matchInfo), ("body", body),
    ("response", response)]

/-- The values of the fields of a route that can be written in several ways. -/
structure Values (route : RouteDef) (method : String)
    (name matchInfo body response : Option Json) : Prop where
  method : method = route.method.name ∨ method = route.method.lowerName
  name : Json.Placed (Json.Nullable id) none route.explicitName name
  matchInfo : Json.Placed (Json.Nullable ModelPath.text) none route.matchInfo matchInfo
  body : Json.Placed (Json.Nullable ModelPath.text) none route.body body
  response : Json.Placed (Json.Nullable ModelPath.text) none route.response response

def WrittenAs (route : RouteDef) (json : Json) : Prop :=
  ∃ method name matchInfo body response, route.Values method name matchInfo body response ∧
    Json.LaidOut (route.row method name matchInfo body response) json

/-- What is known of a route. -/
def part (route : RouteDef) (seen : List String) : RoutePart :=
  ⟨known seen "handler" none (some route.handler), known seen "ts_name" none route.explicitName,
    known seen "method" none (some route.method), known seen "path" none (some route.path),
    known seen "match_info" none route.matchInfo, known seen "body" none route.body,
    known seen "response" none route.response⟩

theorem reads (route : RouteDef) (source : JsonSource) {method : String}
    {name matchInfo body response : Option Json}
    (h : route.Values method name matchInfo body response) :
    (RouteDef.reader source).Reads (route.row method name matchInfo body response) route.part
      route := by
  refine ⟨rfl, ?_, rfl, ?_, ?_⟩
  · change List.Nodup ["handler", "ts_name", "method", "path", "match_info", "body", "response"]
    decide
  · intro field value hslot seen
    simp only [row, List.mem_cons, Prod.mk.injEq, List.not_mem_nil, or_false] at hslot
    rcases hslot with ⟨rfl, heq⟩ | ⟨rfl, heq⟩ | ⟨rfl, heq⟩ | ⟨rfl, heq⟩ | ⟨rfl, heq⟩ |
      ⟨rfl, heq⟩ | ⟨rfl, heq⟩
    · cases heq
      simp [reader, part, known, Json.readString, Except.map]
    · have hread := @Json.Nullable.readNullable_eq _ _ Json.readString _ _
        (h.name.form_of_eq heq) fun _ => rfl
      simp [reader, part, known, hread, Except.map]
    · cases heq
      simp [reader, part, known, HttpMethod.ofJson_eq h.method, Except.map]
    · cases heq
      simp [reader, part, known, Json.readString, Except.map]
    · have hread := (h.matchInfo.form_of_eq heq).readNullable_eq ModelPath.ofJson_string
      simp [reader, part, known, hread, Except.map]
    · have hread := (h.body.form_of_eq heq).readNullable_eq ModelPath.ofJson_string
      simp [reader, part, known, hread, Except.map]
    · have hread := (h.response.form_of_eq heq).readNullable_eq ModelPath.ofJson_string
      simp [reader, part, known, hread, Except.map]
  · intro seen hseen
    have hhandler : known seen "handler" none (some route.handler) = some route.handler :=
      known_eq_of_seen fun _ => hseen _ (.string route.handler) (by simp [row])
    have hmethod : known seen "method" none (some route.method) = some route.method :=
      known_eq_of_seen fun _ => hseen _ (.string method) (by simp [row])
    have hpath : known seen "path" none (some route.path) = some route.path :=
      known_eq_of_seen fun _ => hseen _ (.string route.path) (by simp [row])
    have hname := h.name.known_eq fun json hjson => hseen "ts_name" json (by simp [row, hjson])
    have hmatchInfo := h.matchInfo.known_eq
      fun json hjson => hseen "match_info" json (by simp [row, hjson])
    have hbody := h.body.known_eq fun json hjson => hseen "body" json (by simp [row, hjson])
    have hresponse := h.response.known_eq
      fun json hjson => hseen "response" json (by simp [row, hjson])
    rw [part, hhandler, hmethod, hpath, hname, hmatchInfo, hbody, hresponse]
    rfl

theorem WrittenAs.ofJson_eq {route : RouteDef} {json : Json} (h : route.WrittenAs json)
    (source : JsonSource) : RouteDef.ofJson source json = .ok route := by
  obtain ⟨method, name, matchInfo, body, response, hvalues, hjson⟩ := h
  exact (route.reads source hvalues).read_eq hjson source

def toJson (route : RouteDef) : Json :=
  .object (Json.present (route.row route.method.name (route.explicitName.map Json.string)
    (route.matchInfo.map ModelPath.toJson) (route.body.map ModelPath.toJson)
    (route.response.map ModelPath.toJson)))

theorem writtenAs_toJson (route : RouteDef) : route.WrittenAs route.toJson :=
  ⟨_, _, _, _, _, ⟨Or.inl rfl, Json.placed_map_string _ _, Json.placed_map_string _ _,
    Json.placed_map_string _ _, Json.placed_map_string _ _⟩, .object (.refl _)⟩

end RouteDef

namespace SchemaDocument

structure Values (document : SchemaDocument) (models roots routes : Option Json) : Prop where
  models : Json.Placed ModelGraph.WrittenAs ModelGraph.empty document.graph models
  roots : Json.Placed (Json.ArrayOf ModelPath.WrittenAs) [] document.declaredRoots roots
  routes : Json.Placed (Json.ArrayOf RouteDef.WrittenAs) [] document.routes routes

def WrittenAs (document : SchemaDocument) (json : Json) : Prop :=
  ∃ models roots routes, document.Values models roots routes ∧
    Json.LaidOut [("models", models), ("roots", roots), ("routes", routes)] json

/-- What is known of a document. -/
def part (document : SchemaDocument) (seen : List String) : SchemaDocument :=
  ⟨known seen "models" ModelGraph.empty document.graph,
    known seen "roots" [] document.declaredRoots, known seen "routes" [] document.routes⟩

theorem reads (document : SchemaDocument) (source : JsonSource) {models roots routes : Option Json}
    (h : document.Values models roots routes) :
    (reader source).Reads [("models", models), ("roots", roots), ("routes", routes)] document.part
      document := by
  refine ⟨rfl, ?_, rfl, ?_, ?_⟩
  · change List.Nodup ["models", "roots", "routes"]
    decide
  · intro field value hslot seen
    simp only [List.mem_cons, Prod.mk.injEq, List.not_mem_nil, or_false] at hslot
    rcases hslot with ⟨rfl, heq⟩ | ⟨rfl, heq⟩ | ⟨rfl, heq⟩
    · have hread := (h.models.form_of_eq heq).ofJson_eq source
      simp [reader, part, known, hread, Except.map]
    · have hread := (h.roots.form_of_eq heq).readArray_eq
        fun path json hpath => hpath.ofJson_eq
      simp [reader, part, known, hread, Except.map]
    · have hread := (h.routes.form_of_eq heq).readArray_eq
        fun route json hroute => hroute.ofJson_eq source
      simp [reader, part, known, hread, Except.map]
  · intro seen hseen
    have hmodels := h.models.known_eq fun json hjson => hseen "models" json (by simp [hjson])
    have hroots := h.roots.known_eq fun json hjson => hseen "roots" json (by simp [hjson])
    have hroutes := h.routes.known_eq fun json hjson => hseen "routes" json (by simp [hjson])
    rw [part, hmodels, hroots, hroutes]
    rfl

theorem WrittenAs.ofJson_eq {document : SchemaDocument} {json : Json} (h : document.WrittenAs json)
    (source : JsonSource) : SchemaDocument.ofJson source json = .ok document := by
  obtain ⟨models, roots, routes, hvalues, hjson⟩ := h
  exact (document.reads source hvalues).read_eq hjson source

def toJson (document : SchemaDocument) : Json :=
  .object [("models", document.graph.toJson),
    ("roots", .array (document.declaredRoots.map ModelPath.toJson)),
    ("routes", .array (document.routes.map RouteDef.toJson))]

theorem writtenAs_toJson (document : SchemaDocument) : document.WrittenAs document.toJson :=
  ⟨_, _, _, ⟨.there document.graph.writtenAs_toJson,
    .there (Json.arrayOf_map ModelPath.writtenAs_toJson document.declaredRoots),
    .there (Json.arrayOf_map RouteDef.writtenAs_toJson document.routes)⟩, .object (.refl _)⟩

/-- What is written in a form tells the document. -/
theorem WrittenAs.unique {document other : SchemaDocument} {json : Json}
    (h : document.WrittenAs json) (hother : other.WrittenAs json) : document = other :=
  Except.ok.inj ((h.ofJson_eq .value).symm.trans (hother.ofJson_eq .value))

/-- Documents are read as they were written. Every document has a form, and every form of it is read
as the document; the type under `optional` is joined with the absent value, and a bare name that is
no keyword is the path of a model. -/
theorem ofJson_of_writtenAs :
    (∀ document : SchemaDocument, document.WrittenAs document.toJson ∧
      ∀ json, document.WrittenAs json → ∀ source, ofJson source json = .ok document) ∧
    (∀ (ty : TypeExpr) (json : Json), ty.WrittenAs json → TypeExpr.ofJson json = .ok ty ∧
      TypeExpr.ofJson (.object [("optional", json)]) =
        .ok (.union [ty, .primitive .absence])) ∧
    (∀ word, Text.trim word ≠ "" → PrimitiveKind.ofKeyword? (Text.trim word) = none →
      TypeExpr.ofJson (.string word) = .ok (.model ⟨Text.trim word⟩)) := by
  refine ⟨fun document => ⟨document.writtenAs_toJson, fun json h => h.ofJson_eq⟩, ?_, ?_⟩
  · intro ty json hty
    exact ⟨hty.ofJson_eq, (TypeExpr.WrittenAs.optional hty).ofJson_eq⟩
  · intro word hblank hword
    exact (TypeExpr.WrittenAs.bare hblank hword).ofJson_eq

/-- A document with a model whose path is a keyword and whose first field defaults to `null`. -/
def keywordPath : SchemaDocument where
  graph := ModelGraph.empty.insert ⟨"str"⟩
    ⟨[⟨"next", .model ⟨"str"⟩, some .null⟩, ⟨"tag", .model ⟨"app.Tag"⟩, none⟩]⟩
  declaredRoots := [⟨"str"⟩]
  routes := [⟨"show", none, .get, "/tags", none, none, some ⟨"str"⟩⟩]

/-- The document as an array, its parts as arrays and objects. -/
def keywordPathJson : Json :=
  .array
    [.object [("str", .array [.array
      [.array [.string "next", .object [("model", .string "str")], .null],
        .object [("type", .string " app.Tag "), ("name", .string "tag")]]])],
      .array [.string "str"],
      .array [.object [("ts_name", .null), ("handler", .string "show"), ("method", .string "get"),
        ("path", .string "/tags"), ("response", .string "str")]]]

theorem writtenAs_keywordPathJson : keywordPath.WrittenAs keywordPathJson := by
  have hnext : FieldDef.WrittenAs ⟨"next", .model ⟨"str"⟩, some .null⟩
      (.array [.string "next", .object [("model", .string "str")], .null]) :=
    ⟨_, .model ⟨"str"⟩, @Json.LaidOut.array _ _ 0 rfl⟩
  have htag : FieldDef.WrittenAs ⟨"tag", .model ⟨"app.Tag"⟩, none⟩
      (.object [("type", .string " app.Tag "), ("name", .string "tag")]) := by
    refine ⟨.string " app.Tag ", ?_, .object (.swap _ _ _)⟩
    have htrim : Text.trim " app.Tag " = "app.Tag" := by decide +kernel
    rw [← htrim]
    exact .bare (by decide +kernel) (by decide +kernel)
  have hroute : RouteDef.WrittenAs ⟨"show", none, .get, "/tags", none, none, some ⟨"str"⟩⟩
      (.object [("ts_name", .null), ("handler", .string "show"), ("method", .string "get"),
        ("path", .string "/tags"), ("response", .string "str")]) := by
    refine ⟨"get", some .null, none, none, some (.string "str"),
      ⟨Or.inr rfl, .there .null, .leftOut, .leftOut, .there (.text (⟨"str"⟩ : ModelPath))⟩,
      .object (.swap _ _ _)⟩
  have hgraph : keywordPath.graph.WrittenAs (.object [("str", .array [.array
      [.array [.string "next", .object [("model", .string "str")], .null],
        .object [("type", .string " app.Tag "), ("name", .string "tag")]]])]) :=
    ⟨keywordPath.graph.models.entries, _, .refl _,
      .cons ⟨rfl, _, .there ⟨_, .cons hnext (.cons htag .nil), rfl⟩,
        @Json.LaidOut.array _ _ 0 rfl⟩ .nil, rfl⟩
  exact ⟨_, _, _, ⟨.there hgraph, .there ⟨_, .cons rfl .nil, rfl⟩,
    .there ⟨_, .cons hroute .nil, rfl⟩⟩, @Json.LaidOut.array _ _ 0 rfl⟩

theorem ofJson_of_writtenAs_keywordPath :
    ofJson .text keywordPathJson = .ok keywordPath ∧
      TypeExpr.ofJson (.object [("optional", .string "int")]) =
        .ok (.union [.primitive .int, .primitive .absence]) ∧
      TypeExpr.ofJson (.string " app.Tag ") = .ok (.model ⟨Text.trim " app.Tag "⟩) := by
  obtain ⟨hdocument, hty, hbare⟩ := ofJson_of_writtenAs
  have hint : TypeExpr.WrittenAs (.primitive .int) (.string "int") := .keyword (by decide +kernel)
  exact ⟨(hdocument keywordPath).2 _ writtenAs_keywordPathJson _, (hty _ _ hint).2,
    hbare " app.Tag " (by decide +kernel) (by decide +kernel)⟩

end SchemaDocument

end SchemaWire
