import Mathlib.Logic.Relation
import SchemaWire.Proofs.Document.TypeLayout
import SchemaWire.Proofs.Index.Enums

/-!
Documents under changes of their layout. Every record in a document reads each of its fields
independently of the others, and a graph takes its models in any order. The main statement is that
the layout of a document does not matter, and that a document has no members but its own.
-/
namespace SchemaWire

open Json (Relaid SameShape)

/-! Values without records. -/

namespace Json

variable {α : Type} {value other : Json}

theorem SameShape.readString_eq (h : SameShape value other) :
    value.readString.toOption = other.readString.toOption := by
  cases h <;> rfl

theorem SameShape.modelPath_eq (h : SameShape value other) :
    (ModelPath.ofJson value).toOption = (ModelPath.ofJson other).toOption := by
  cases h <;> rfl

theorem SameShape.readNullable_eq {read : Json → Read α} (h : SameShape value other)
    (hread : (read value).toOption = (read other).toOption) :
    (value.readNullable read).toOption = (other.readNullable read).toOption := by
  cases h <;> exact toOption_map_congr hread some

end Json

theorem LiteralValue.toOption_ofJson (value : Json) :
    (ofJson value).toOption = value.content?.bind ofContent? := by
  rw [ofJson, Json.readContent]
  cases value.content? with
  | none => rfl
  | some content =>
      simp only [bind, Except.bind, Option.bind_some]
      cases ofContent? content <;> rfl

theorem TypeExpr.toOption_ofJson (value : Json) :
    (ofJson value).toOption = value.content?.bind ofContent? := by
  rw [ofJson, Json.readContent]
  cases value.content? with
  | none => rfl
  | some content =>
      simp only [bind, Except.bind, Option.bind_some]
      cases ofContent? content <;> cases content <;> rfl

theorem Json.AlikeBy.bind_eq {β : Type} {read : Content → Option β} {value other : Json}
    (h : AlikeBy read value other) : value.content?.bind read = other.content?.bind read := by
  rw [AlikeBy] at h
  revert h
  cases value.content? <;> cases other.content? <;> simp

namespace HttpMethod

/-- Of objects, those with a single entry may be methods. -/
theorem toOption_ofJson_object (source : JsonSource) (members : List (String × Json)) :
    (ofJson source (.object members)).toOption =
      match members with
      | [(name, value)] => (readEntry name value).toOption
      | _ => none := by
  match members with
  | [] => cases source <;> rfl
  | [_] => rfl
  | (name, value) :: _ :: _ =>
      cases source with
      | text => exact toOption_bind_none fun _ => rfl
      | value => rfl

theorem toOption_ofJson_member (source : JsonSource) {value other : Json}
    (h : SameShape value other) (before after : List (String × Json)) (name : String) :
    (ofJson source (.object (before ++ (name, value) :: after))).toOption =
      (ofJson source (.object (before ++ (name, other) :: after))).toOption := by
  rw [toOption_ofJson_object, toOption_ofJson_object]
  match before, after with
  | [], [] =>
      -- Beside the name of a method stands `null`, which neither of the values is.
      cases h <;> exact toOption_bind_congr rfl fun _ => rfl
  | [], _ :: _ => rfl
  | [_], _ => rfl
  | _ :: _ :: _, _ => rfl

/-- A method is the same after a change of its layout. -/
theorem ofJson_relaid (source : JsonSource) {value other : Json}
    (h : Relaid .elsewhere value other) :
    (ofJson source value).toOption = (ofJson source other).toOption := by
  cases h with
  | @reordered _ members others _ hperm =>
      rw [toOption_ofJson_object, toOption_ofJson_object]
      match members, others, hperm with
      | [], _, hperm => rw [List.nil_perm.mp hperm]
      | [_], _, hperm => rw [List.singleton_perm.mp hperm]
      | _ :: _ :: _, [], hperm => cases hperm.length_eq
      | _ :: _ :: _, [_], hperm => cases hperm.length_eq
      | _ :: _ :: _, _ :: _ :: _, _ => rfl
  | extended _ _ hopen _ _ => cases hopen
  | member before after name hvalue =>
      exact toOption_ofJson_member source hvalue.sameShape before after name
  | item _ _ _ => cases source <;> rfl

end HttpMethod

/-! Fields, models and routes. -/

namespace FieldDef

/-- What is known of a field definition once one of its fields is read. -/
def merge (name : String) (read part : FieldPart) : FieldPart :=
  match name with
  | "name" => { part with name := read.name }
  | "type" => { part with ty := read.ty }
  | _ => { part with default := read.default }

theorem reader_commutes : reader.Commutes := by
  refine RecordReader.commutes_of_merge merge ?_ ?_
  · intro name hname value part
    simp only [reader, List.mem_cons, List.not_mem_nil, or_false] at hname
    rcases hname with rfl | rfl | rfl <;> simp [reader, merge, except_map_map]
  · intro first hfirst second hsecond hne read other part
    simp only [reader, List.mem_cons, List.not_mem_nil, or_false] at hfirst hsecond
    rcases hfirst with rfl | rfl | rfl <;>
      rcases hsecond with rfl | rfl | rfl <;>
      first
      | exact absurd rfl hne
      | rfl

theorem reader_readsAt : reader.ReadsAt .field where
  fields_eq := rfl
  nodup := by decide
  isClosed _ := rfl
  member_eq _ := rfl
  item_eq _ := rfl
  commutes := reader_commutes
  readField name inner hfield value other h part := by
    simp only [Place.fields, List.mem_cons, Prod.mk.injEq, List.not_mem_nil, or_false] at hfield
    rcases hfield with ⟨rfl, rfl⟩ | ⟨rfl, rfl⟩ | ⟨rfl, rfl⟩
    · exact toOption_map_congr h.sameShape.readString_eq _
    · refine toOption_map_congr ?_ _
      rw [TypeExpr.toOption_ofJson, TypeExpr.toOption_ofJson]
      exact Json.AlikeBy.bind_eq (TypeExpr.same h)
    · refine toOption_map_congr ?_ _
      rw [LiteralValue.toOption_ofJson, LiteralValue.toOption_ofJson]
      exact h.alikeBy_literal.bind_eq

theorem ofJson_relaid (source : JsonSource) {value other : Json} (h : Relaid .field value other) :
    (ofJson source value).toOption = (ofJson source other).toOption :=
  reader_readsAt.read_eq h source

end FieldDef

namespace ModelDef

variable (source : JsonSource)

theorem reader_commutes : (reader source).Commutes := by
  intro first hfirst second hsecond hne
  exact absurd ((List.mem_singleton.mp hfirst).trans (List.mem_singleton.mp hsecond).symm) hne

theorem reader_readsAt : (reader source).ReadsAt .model where
  fields_eq := rfl
  nodup := by decide
  isClosed _ := rfl
  member_eq _ := rfl
  item_eq _ := rfl
  commutes := reader_commutes source
  readField name inner hfield value other h part := by
    obtain ⟨rfl, rfl⟩ := Prod.mk.inj (List.mem_singleton.mp hfield)
    exact h.readArray_eq fun _ _ _ hitem => FieldDef.ofJson_relaid source hitem

theorem ofJson_relaid {value other : Json} (h : Relaid .model value other) :
    (ofJson source value).toOption = (ofJson source other).toOption :=
  (reader_readsAt source).read_eq h source

end ModelDef

namespace RouteDef

variable (source : JsonSource)

/-- What is known of a route once one of its fields is read. -/
def merge (name : String) (read part : RoutePart) : RoutePart :=
  match name with
  | "handler" => { part with handler := read.handler }
  | "ts_name" => { part with name := read.name }
  | "method" => { part with method := read.method }
  | "path" => { part with path := read.path }
  | "match_info" => { part with matchInfo := read.matchInfo }
  | "body" => { part with body := read.body }
  | _ => { part with response := read.response }

theorem reader_commutes : (reader source).Commutes := by
  refine RecordReader.commutes_of_merge merge ?_ ?_
  · intro name hname value part
    simp only [reader, List.mem_cons, List.not_mem_nil, or_false] at hname
    rcases hname with rfl | rfl | rfl | rfl | rfl | rfl | rfl <;>
      simp [reader, merge, except_map_map]
  · intro first hfirst second hsecond hne read other part
    simp only [reader, List.mem_cons, List.not_mem_nil, or_false] at hfirst hsecond
    rcases hfirst with rfl | rfl | rfl | rfl | rfl | rfl | rfl <;>
      rcases hsecond with rfl | rfl | rfl | rfl | rfl | rfl | rfl <;>
      first
      | exact absurd rfl hne
      | rfl

theorem reader_readsAt : (reader source).ReadsAt .route where
  fields_eq := rfl
  nodup := by decide
  isClosed _ := rfl
  member_eq _ := rfl
  item_eq _ := rfl
  commutes := reader_commutes source
  readField name inner hfield value other h part := by
    have hshape := h.sameShape
    simp only [Place.fields, List.mem_cons, Prod.mk.injEq, List.not_mem_nil, or_false] at hfield
    rcases hfield with ⟨rfl, rfl⟩ | ⟨rfl, rfl⟩ | ⟨rfl, rfl⟩ | ⟨rfl, rfl⟩ | ⟨rfl, rfl⟩ |
      ⟨rfl, rfl⟩ | ⟨rfl, rfl⟩
    · exact toOption_map_congr hshape.readString_eq _
    · exact toOption_map_congr (hshape.readNullable_eq hshape.readString_eq) _
    · exact toOption_map_congr (HttpMethod.ofJson_relaid source h) _
    · exact toOption_map_congr hshape.readString_eq _
    · exact toOption_map_congr (hshape.readNullable_eq hshape.modelPath_eq) _
    · exact toOption_map_congr (hshape.readNullable_eq hshape.modelPath_eq) _
    · exact toOption_map_congr (hshape.readNullable_eq hshape.modelPath_eq) _

theorem ofJson_relaid {value other : Json} (h : Relaid .route value other) :
    (ofJson source value).toOption = (ofJson source other).toOption :=
  (reader_readsAt source).read_eq h source

end RouteDef

/-! Graphs. -/

/-- Values under different keys may be added in either order. -/
theorem SortedMap.insert_comm {α : Type} (map : SortedMap α) {first second : String}
    (hne : first ≠ second) (value other : α) :
    (map.insert first value).insert second other =
      (map.insert second other).insert first value := by
  refine ext_get? fun key => ?_
  by_cases hfirst : key = first
  · rw [hfirst, get?_insert_of_ne _ hne, get?_insert_self, get?_insert_self]
  · by_cases hsecond : key = second
    · rw [hsecond, get?_insert_self, get?_insert_of_ne _ hne.symm, get?_insert_self]
    · simp only [get?_insert_of_ne _ hfirst, get?_insert_of_ne _ hsecond]

namespace ModelGraph

variable (source : JsonSource)

/-- The models of a graph may come in any order if no path is repeated. -/
theorem readMembers_perm {members others : List (String × Json)} (hperm : members.Perm others)
    (hdistinct : (members.map Prod.fst).Nodup) (graph : ModelGraph) :
    (readMembers source graph members).toOption = (readMembers source graph others).toOption := by
  induction hperm generalizing graph with
  | nil => rfl
  | cons member _ ih =>
      exact toOption_bind_congr rfl fun model => ih (List.nodup_cons.mp hdistinct).2 _
  | swap first second rest =>
      have hne : second.1 ≠ first.1 := by
        simp only [List.map_cons, List.nodup_cons, List.mem_cons, not_or] at hdistinct
        exact hdistinct.1.1
      simp only [readMembers]
      cases ModelDef.ofJson source second.2 with
      | error _ => exact (toOption_bind_none fun _ => rfl).symm
      | ok model =>
          cases ModelDef.ofJson source first.2 with
          | error _ => rfl
          | ok otherModel =>
              have hgraph : (graph.insert ⟨second.1⟩ model).insert ⟨first.1⟩ otherModel =
                  (graph.insert ⟨first.1⟩ otherModel).insert ⟨second.1⟩ model :=
                congrArg ModelGraph.mk (graph.models.insert_comm hne model otherModel)
              exact congrArg (fun graph => (readMembers source graph rest).toOption) hgraph
  | trans hfirst _ ih ihNext =>
      exact (ih hdistinct graph).trans (ihNext ((hfirst.map Prod.fst).nodup hdistinct) graph)

theorem readMembers_member {value other : Json}
    (h : (ModelDef.ofJson source value).toOption = (ModelDef.ofJson source other).toOption)
    (before after : List (String × Json)) (path : String) (graph : ModelGraph) :
    (readMembers source graph (before ++ (path, value) :: after)).toOption =
      (readMembers source graph (before ++ (path, other) :: after)).toOption := by
  induction before generalizing graph with
  | nil => exact toOption_bind_congr h fun _ => rfl
  | cons member rest ih => exact toOption_bind_congr rfl fun model => ih _

/-- A graph is the same after a change of its layout. -/
theorem ofJson_relaid {value other : Json} (h : Relaid .models value other) :
    (ofJson source value).toOption = (ofJson source other).toOption := by
  cases h with
  | reordered hdistinct hperm => exact readMembers_perm source hperm hdistinct empty
  | extended _ _ hopen _ _ => cases hopen
  | member before after path hvalue =>
      exact readMembers_member source (ModelDef.ofJson_relaid source hvalue) before after path empty
  | item _ _ _ => rfl

end ModelGraph

/-! Documents. -/

namespace SchemaDocument

variable (source : JsonSource)

/-- What is known of a document once one of its fields is read. -/
def merge (name : String) (read part : SchemaDocument) : SchemaDocument :=
  match name with
  | "models" => { part with graph := read.graph }
  | "roots" => { part with declaredRoots := read.declaredRoots }
  | _ => { part with routes := read.routes }

theorem reader_commutes : (reader source).Commutes := by
  refine RecordReader.commutes_of_merge merge ?_ ?_
  · intro name hname value part
    simp only [reader, List.mem_cons, List.not_mem_nil, or_false] at hname
    rcases hname with rfl | rfl | rfl <;> simp [reader, merge, except_map_map]
  · intro first hfirst second hsecond hne read other part
    simp only [reader, List.mem_cons, List.not_mem_nil, or_false] at hfirst hsecond
    rcases hfirst with rfl | rfl | rfl <;>
      rcases hsecond with rfl | rfl | rfl <;>
      first
      | exact absurd rfl hne
      | rfl

theorem reader_readsAt : (reader source).ReadsAt .document where
  fields_eq := rfl
  nodup := by decide
  isClosed hopen := by cases hopen
  member_eq _ := rfl
  item_eq _ := rfl
  commutes := reader_commutes source
  readField name inner hfield value other h part := by
    simp only [Place.fields, List.mem_cons, Prod.mk.injEq, List.not_mem_nil, or_false] at hfield
    rcases hfield with ⟨rfl, rfl⟩ | ⟨rfl, rfl⟩ | ⟨rfl, rfl⟩
    · exact toOption_map_congr (ModelGraph.ofJson_relaid source h) _
    · exact toOption_map_congr
        (h.readArray_eq fun _ _ _ hitem => hitem.sameShape.modelPath_eq) _
    · exact toOption_map_congr
        (h.readArray_eq fun _ _ _ hitem => RouteDef.ofJson_relaid source hitem) _

theorem ofJson_relaid {value other : Json} (h : Relaid .document value other) :
    (ofJson source value).toOption = (ofJson source other).toOption :=
  (reader_readsAt source).read_eq h source

/-- A document is rejected if it has a member that it does not know. -/
theorem ofJson_unknown {members : List (String × Json)} {name : String} {value : Json}
    (hmember : (name, value) ∈ members) (hname : name ∉ Place.document.names) :
    ∃ fault, ofJson source (.object members) = .error fault := by
  have hunknown : name ∉ (reader source).fields := hname
  have hrefused := RecordReader.readMembers_refused rfl hmember hunknown [] empty
  cases hread : (reader source).readMembers [] empty members with
  | error fault => exact ⟨fault, congrArg (· >>= _) hread⟩
  | ok part =>
      rw [hread] at hrefused
      cases hrefused

/-- Whatever its layout, a document is the same or is rejected; and it is rejected if it has a
member that it does not know. -/
theorem ofJson_layout :
    (∀ value other, Relation.ReflTransGen (Relaid .document) value other →
      (ofJson source value).toOption = (ofJson source other).toOption) ∧
    ∀ members name value, (name, value) ∈ members → name ∉ Place.document.names →
      ∃ fault, ofJson source (.object members) = .error fault := by
  refine ⟨fun value other h => ?_, fun members name value => ofJson_unknown source⟩
  induction h with
  | refl => rfl
  | tail _ hstep ih => exact ih.trans (ofJson_relaid source hstep)

/-- A document that reads as one with a model and no routes. -/
def shopDocument : Json :=
  .object [("models", .object [("app.A", .object [("fields", .array [])])]), ("routes", .array [])]

/-- The document in another layout, with a note in its model. -/
def relaidShopDocument : Json :=
  .object [("routes", .array []),
    ("models", .object [("app.A", .object [("fields", .array []), ("note", .null)])])]

theorem ofJson_layout_shop :
    Relation.ReflTransGen (Relaid .document) shopDocument relaidShopDocument ∧
    (ofJson .text shopDocument).toOption = (ofJson .text relaidShopDocument).toOption ∧
    (ofJson .text shopDocument).toOption.isSome = true ∧
    "note" ∉ Place.document.names ∧
    ∃ fault, ofJson .text (.object [("routes", .array []), ("note", .null)]) = .error fault := by
  have hnote : Relaid .document shopDocument (.object [("models", .object [("app.A",
      .object [("fields", .array []), ("note", .null)])]), ("routes", .array [])]) :=
    .member [] _ "models" (.member [] [] "app.A"
      (.extended [("fields", .array [])] [] rfl (by decide) rfl))
  have hswap : Relaid .document (.object [("models", .object [("app.A",
      .object [("fields", .array []), ("note", .null)])]), ("routes", .array [])])
      relaidShopDocument :=
    .reordered (by decide) (.swap ..)
  have hlayout : Relation.ReflTransGen (Relaid .document) shopDocument relaidShopDocument :=
    .tail (.single hnote) hswap
  have hunknown : "note" ∉ Place.document.names := by decide
  exact ⟨hlayout, (ofJson_layout .text).1 _ _ hlayout, by decide +kernel, hunknown,
    (ofJson_layout .text).2 _ "note" .null (by simp) hunknown⟩

end SchemaDocument

end SchemaWire
