import SchemaWire.Document.OfJson
import SchemaWire.Files.Path
import SchemaWire.Yaml.Layout
import SchemaWire.Yaml.NodeReader
import SchemaWire.Yaml.Scalar

/-!
Reading documents from YAML. Records are mappings. Where a text is expected any scalar is one, as
it is written; type expressions and literals are read from self-describing values. What is wrong
with a text that cannot be read is not said. The format of a file, JSON or YAML, is told from its
name.
-/
namespace SchemaWire.Yaml

/-- Steps that read the nodes of a document, given its nodes under anchors. The state is how many
aliases may still be followed, so that no short text stands for a huge document. -/
abbrev Reading := ReaderT (List (Nat × Node)) (StateT Nat Option)

namespace Reading

/-- How many aliases may be followed for each unit of a document's size. -/
def aliasesPerUnit : Nat := 100

/-- What is read from a document. Of several nodes under an anchor the one that begins last
counts. -/
def ofDocument? {α : Type} (read : Node → Reading α) (document : Node) : Option α :=
  (read document document.anchored.reverse (aliasesPerUnit * document.size)).map Prod.fst

/-- The node that an alias stands for; other nodes stand for themselves. -/
def follow : Node → Reading Node
  | .alias number => do
      match ← get with
      | 0 => failure
      | budget + 1 =>
          set budget
          (← read).lookup number
  | node => return node

end Reading

namespace Node

open Reading

/-- The nesting of collections that can be read. -/
def nestingLimit : Nat := 128

/-- A collection with a local tag is a value of a type of its own. -/
def refuseLocalTag (marks : Marks) : Reading Unit :=
  if marks.tag.any isLocalTag then failure else return ()

/-- The self-describing value of a node, in which collections are nested so many levels deep at
most. -/
def readContent : (levels : Nat) → Node → Reading Content
  | levels, node => do
      match levels, ← follow node with
      | _, .alias _ => failure
      | _, .scalar marks text isPlain => scalarContent? marks.tag text isPlain
      | 0, _ => failure
      | levels + 1, .sequence marks items => do
          refuseLocalTag marks
          .list <$> items.mapM (readContent levels)
      | levels + 1, .mapping marks entries => do
          refuseLocalTag marks
          .mapping <$> entries.mapM fun (key, value) => do
            return (← readContent levels key, ← readContent levels value)

def readText (node : Node) : Reading String := do
  match ← follow node with
  | .scalar _ text _ => return text
  | _ => failure

/-- Whether a scalar stands for the absence of a value. Tagged as null, it has to be null. -/
def isAbsent? (tag : Option String) (text : String) (isPlain : Bool) : Option Bool :=
  match isPlain, tag with
  | false, _ => some false
  | true, none => some (isNull text)
  | true, some tag =>
      if tag = coreTag "null" then if nullWords.contains text then some true else none
      else some false

/-- A value that may be absent. -/
def readNullable {α : Type} (read : Node → Reading α) (node : Node) : Reading (Option α) := do
  match ← follow node with
  | .scalar marks text isPlain =>
      if ← liftM (isAbsent? marks.tag text isPlain) then return none
      else some <$> read (.scalar marks text isPlain)
  | node => some <$> read node

/-- The items of a sequence. A place where nothing is written is an empty one. -/
def readItems {α : Type} (read : Node → Reading α) (node : Node) : Reading (List α) := do
  match ← follow node with
  | .sequence _ items => items.mapM read
  | .scalar _ "" true => return []
  | _ => failure

/-- The entries of a mapping with their keys as they are written. A place where nothing is written
is an empty one. -/
def entries (node : Node) : Reading (List (Node × Node)) := do
  match ← follow node with
  | .mapping _ entries => return entries
  | .scalar _ "" true => return []
  | _ => failure

/-- Reads the entries of a record, given the fields already read. -/
def readFields {σ α : Type} (reader : RecordReader σ α)
    (readField : String → Node → σ → Reading σ) (seen : List String) (part : σ) :
    List (Node × Node) → Reading σ
  | [] => return part
  | (key, value) :: rest => do
      let name ← readText key
      if name ∈ reader.fields then
        if name ∈ seen then failure
        readFields reader readField (name :: seen) (← readField name value part) rest
      else if reader.isClosed then failure
      else readFields reader readField seen part rest

def readRecord {σ α : Type} (reader : RecordReader σ α)
    (readField : String → Node → σ → Reading σ) (node : Node) : Reading α := do
  let part ← readFields reader readField [] reader.start (← entries node)
  match reader.finish part with
  | .ok record => return record
  | .error _ => failure

/-- The levels of collections around the value of a field: the document, its models, a model, its
fields and the field. -/
def levelsAroundField : Nat := 5

def readFieldContent (node : Node) : Reading Content :=
  readContent (nestingLimit - levelsAroundField) node

def readField (node : Node) : Reading FieldDef :=
  readRecord FieldDef.reader (fun name value part => do
    match name with
    | "name" => return { part with name := some (← readText value) }
    | "type" =>
        let ty ← liftM (TypeExpr.ofContent? (← readFieldContent value))
        return { part with ty := some ty }
    | _ =>
        let literal ← liftM (LiteralValue.ofContent? (← readFieldContent value))
        return { part with default := some literal }) node

def readModel (node : Node) : Reading ModelDef :=
  readRecord (ModelDef.reader .text) (fun _ value _ => readItems readField value) node

/-- The models of a mapping; of several with the same path the last one counts. -/
def readGraph (node : Node) : Reading ModelGraph := do
  (← entries node).foldlM (fun graph (key, value) => do
    let path ← readText key
    return graph.insert ⟨path⟩ (← readModel value)) ModelGraph.empty

/-- A method: its name, or its name as a tag of nothing. -/
def readMethod (node : Node) : Reading HttpMethod := do
  match ← follow node with
  | .scalar marks text isPlain =>
      match marks.tag.filter isLocalTag with
      | none => HttpMethod.ofName? text
      | some tag =>
          if isPlain && isNull text then HttpMethod.ofName? (tag.drop 1).toString else failure
  | _ => failure

def readPath (node : Node) : Reading ModelPath :=
  ModelPath.mk <$> readText node

def readRoute (node : Node) : Reading RouteDef :=
  readRecord (RouteDef.reader .text) (fun name value part => do
    match name with
    | "handler" => return { part with handler := some (← readText value) }
    | "ts_name" => return { part with name := ← readNullable readText value }
    | "method" => return { part with method := some (← readMethod value) }
    | "path" => return { part with path := some (← readText value) }
    | "match_info" => return { part with matchInfo := ← readNullable readPath value }
    | "body" => return { part with body := ← readNullable readPath value }
    | _ => return { part with response := ← readNullable readPath value }) node

def readDocument (node : Node) : Reading SchemaDocument :=
  readRecord (SchemaDocument.reader .text) (fun name value part => do
    match name with
    | "models" => return { part with graph := ← readGraph value }
    | "roots" => return { part with declaredRoots := ← readItems readPath value }
    | _ => return { part with routes := ← readItems readRoute value }) node

end Node

end SchemaWire.Yaml

namespace SchemaWire

inductive SchemaFormat where
  | json
  | yaml
deriving DecidableEq, Repr

/-- The format of a file: JSON where its extension says so, in any case, otherwise YAML. -/
def SchemaFormat.ofPath (path : String) : SchemaFormat :=
  match Files.extension? path with
  | some extension =>
      if extension.toList.map Char.toLower = ['j', 's', 'o', 'n'] then json else yaml
  | none => yaml

namespace SchemaDocument

/-- The document of a YAML text. A text without a document is an empty one. -/
def ofYamlText (text : String) : Read SchemaDocument :=
  let document := do
    match ← Yaml.Node.ofTokens? (← Yaml.tokens? text) with
    | none => return empty
    | some node => Yaml.Reading.ofDocument? Yaml.Node.readDocument node
  match document with
  | some document => .ok document
  | none => .error .malformed

def ofText (format : SchemaFormat) (text : String) : Read SchemaDocument :=
  match format with
  | .json => ofJsonText text
  | .yaml => ofYamlText text

end SchemaDocument

end SchemaWire
