import SchemaWire.Data.JsonReader
import SchemaWire.Document.OfContent
import SchemaWire.Document.Record
import SchemaWire.Schema.Document

/-!
Reading documents, and the parts of documents, from JSON.
-/
namespace SchemaWire

/-- The whole value, which has to be readable. -/
def Json.readContent (value : Json) : Read Content :=
  match value.content? with
  | some content => .ok content
  | none => .error .malformed

def LiteralValue.ofJson (value : Json) : Read LiteralValue := do
  let content ← value.readContent
  match LiteralValue.ofContent? content with
  | some literal => return literal
  | none => throw .noLiteralMatches

/-- A type expression. Only at the outermost place a blank name is an error of its own. -/
def TypeExpr.ofJson (value : Json) : Read TypeExpr := do
  let content ← value.readContent
  match TypeExpr.ofContent? content, content with
  | some ty, _ => return ty
  | none, .text _ => throw .emptyTypeName
  | none, _ => throw .noTypeMatches

def ModelPath.ofJson (value : Json) : Read ModelPath :=
  (value.readString).map ModelPath.mk

/-- The fields of a field definition read so far. -/
structure FieldPart where
  name : Option String
  ty : Option TypeExpr
  default : Option LiteralValue

def FieldDef.reader : RecordReader FieldPart FieldDef where
  title := "struct FieldDef"
  fields := ["name", "type", "default"]
  isClosed := false
  start := ⟨none, none, none⟩
  readField name value part :=
    match name with
    | "name" => (value.readString).map fun name => { part with name := some name }
    | "type" => (TypeExpr.ofJson value).map fun ty => { part with ty := some ty }
    | _ => (LiteralValue.ofJson value).map fun literal => { part with default := some literal }
  finish
    | ⟨none, _, _⟩ => .error "name"
    | ⟨_, none, _⟩ => .error "type"
    | ⟨some name, some ty, default⟩ => .ok ⟨name, ty, default⟩

def FieldDef.ofJson (source : JsonSource) (value : Json) : Read FieldDef :=
  FieldDef.reader.read source value

def ModelDef.reader (source : JsonSource) : RecordReader (List FieldDef) ModelDef where
  title := "struct ModelDef"
  fields := ["fields"]
  isClosed := false
  start := []
  readField _ value _ := value.readArray (FieldDef.ofJson source)
  finish fields := .ok ⟨fields⟩

def ModelDef.ofJson (source : JsonSource) (value : Json) : Read ModelDef :=
  (ModelDef.reader source).read source value

namespace ModelGraph

/-- Adds the models of an object in order; of several with the same path the last one counts. -/
def readMembers (source : JsonSource) (graph : ModelGraph) :
    List (String × Json) → Read ModelGraph
  | [] => .ok graph
  | (path, value) :: rest => do
      let model ← ModelDef.ofJson source value
      readMembers source (graph.insert ⟨path⟩ model) rest

/-- A graph: an object of models under their paths. -/
def ofJson (source : JsonSource) : Json → Read ModelGraph
  | .object members => readMembers source empty members
  | .cut members _ => do
      let _ ← readMembers source empty members
      throw .malformed
  | other => other.refuse "a map"

end ModelGraph

namespace HttpMethod

def readName (name : String) : Read HttpMethod :=
  match ofName? name with
  | some method => .ok method
  | none => .error (.unknownMethod name)

/-- The value beside the name of a method, which has to be `null`. -/
def readUnit : Json → Read Unit
  | .null => .ok ()
  | other => other.refuse "unit"

def readEntry (name : String) (value : Json) : Read HttpMethod := do
  let method ← readName name
  readUnit value
  return method

/-- A method: its name, or an object with the name as its only key and `null` under it. -/
def ofJson (source : JsonSource) : Json → Read HttpMethod
  | .string name => readName name
  | .object [(name, value)] => readEntry name value
  | .object ((name, value) :: _) | .cut ((name, value) :: _) _ =>
      match source with
      | .text => do
          let _ ← readEntry name value
          throw .malformed
      | .value => .error .notSingleEntry
  | .object [] | .cut [] _ =>
      match source with
      | .text => .error .malformed
      | .value => .error .notSingleEntry
  | other =>
      match source with
      | .text => .error .malformed
      | .value => other.refuse "string or map"

end HttpMethod

/-- The fields of a route read so far. -/
structure RoutePart where
  handler : Option String
  name : Option String
  method : Option HttpMethod
  path : Option String
  matchInfo : Option ModelPath
  body : Option ModelPath
  response : Option ModelPath

def RouteDef.reader (source : JsonSource) : RecordReader RoutePart RouteDef where
  title := "struct RouteDef"
  fields := ["handler", "ts_name", "method", "path", "match_info", "body", "response"]
  isClosed := false
  start := ⟨none, none, none, none, none, none, none⟩
  readField name value part :=
    match name with
    | "handler" => (value.readString).map fun text => { part with handler := some text }
    | "ts_name" => (value.readNullable Json.readString).map fun name => { part with name }
    | "method" => (HttpMethod.ofJson source value).map fun method =>
        { part with method := some method }
    | "path" => (value.readString).map fun text => { part with path := some text }
    | "match_info" => (value.readNullable ModelPath.ofJson).map fun matchInfo =>
        { part with matchInfo }
    | "body" => (value.readNullable ModelPath.ofJson).map fun body => { part with body }
    | _ => (value.readNullable ModelPath.ofJson).map fun response => { part with response }
  finish
    | ⟨none, _, _, _, _, _, _⟩ => .error "handler"
    | ⟨_, _, none, _, _, _, _⟩ => .error "method"
    | ⟨_, _, _, none, _, _, _⟩ => .error "path"
    | ⟨some handler, name, some method, some path, matchInfo, body, response⟩ =>
        .ok ⟨handler, name, method, path, matchInfo, body, response⟩

def RouteDef.ofJson (source : JsonSource) (value : Json) : Read RouteDef :=
  (RouteDef.reader source).read source value

namespace SchemaDocument

def reader (source : JsonSource) : RecordReader SchemaDocument SchemaDocument where
  title := "struct SchemaDocument"
  fields := ["models", "roots", "routes"]
  isClosed := true
  start := empty
  readField name value part :=
    match name with
    | "models" => (ModelGraph.ofJson source value).map fun graph => { part with graph }
    | "roots" => (value.readArray ModelPath.ofJson).map fun declaredRoots =>
        { part with declaredRoots }
    | _ => (value.readArray (RouteDef.ofJson source)).map fun routes => { part with routes }
  finish part := .ok part

def ofJson (source : JsonSource) (value : Json) : Read SchemaDocument :=
  (reader source).read source value

end SchemaDocument

/-- Reads a text that holds one JSON value and nothing else. -/
def readJsonText {α : Type} (read : Json → Read α) (text : String) : Read α := do
  let (value, isWhole) := JsonReader.read text
  let result ← read value
  if isWhole then return result else throw .malformed

def SchemaDocument.ofJsonText (text : String) : Read SchemaDocument :=
  readJsonText (SchemaDocument.ofJson .text) text

def LiteralValue.ofJsonText (text : String) : Read LiteralValue :=
  readJsonText LiteralValue.ofJson text

end SchemaWire
