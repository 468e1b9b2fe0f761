import SchemaWire.SortedMap
import SchemaWire.Yaml.Node
import SchemaWire.Yaml.Tag
import SchemaWire.Yaml.Token

/-!
From tokens to the document that they make up. A text holds one document at most.
-/
namespace SchemaWire.Yaml

/-- What is ahead while nodes are read: the tokens, and the anchors so far with their numbers. An
anchor is numbered by how many names there were before it. -/
structure NodeReader where
  tokens : List Token
  anchors : SortedMap Nat

/-- Steps that read nodes, or find that the tokens do not make up a document. -/
abbrev ReadNodes := StateT NodeReader Option

namespace NodeReader

def next? : ReadNodes (Option Token) :=
  return (← get).tokens.head?

def skip : ReadNodes Unit :=
  modify fun state => { state with tokens := state.tokens.tail }

/-- Passes over the next token if it is the given one, and says whether it was. -/
def take (token : Token) : ReadNodes Bool := do
  if (← next?) = some token then
    skip
    return true
  else return false

/-- The number of a new anchor. -/
def define (name : String) : ReadNodes Nat := do
  let state ← get
  let number := state.anchors.size
  set { state with anchors := state.anchors.insert name number }
  return number

/-- The number of the anchor that an alias names. -/
def resolve (name : String) : ReadNodes Nat := do
  (← get).anchors.get? name

def anchor? : ReadNodes (Option Nat) := do
  match ← next? with
  | some (.anchor name) =>
      skip
      some <$> define name
  | _ => return none

def expandTag (handles : List (String × String)) (handle suffix : String) : Option String :=
  if handle = "" then some suffix else (handles.lookup handle).map (· ++ suffix)

def tag? (handles : List (String × String)) : ReadNodes (Option String) := do
  match ← next? with
  | some (.tag handle suffix) =>
      skip
      some <$> liftM (expandTag handles handle suffix)
  | _ => return none

/-- An anchor and a tag in either order, each if there is one. -/
def marks (handles : List (String × String)) : ReadNodes Marks := do
  match ← anchor? with
  | some number => return ⟨some number, ← tag? handles⟩
  | none =>
      match ← tag? handles with
      | some tag => return ⟨← anchor?, some tag⟩
      | none => return ⟨none, none⟩

/-- The marks of a scalar that is written: the tag of a single exclamation mark says nothing. -/
def marksOfScalar (marks : Marks) : Marks :=
  { marks with tag := marks.tag.filter (· ≠ primaryHandle) }

/-- The node of a place where no content is written; there have to be marks at least. -/
def markedNothing (marks : Marks) : ReadNodes Node :=
  if marks = ⟨none, none⟩ then failure else return .scalar marks "" true

/-- Whether a token ends a part of a block mapping. -/
def endsMappingPart (token : Token) : Bool :=
  token = .key || token = .value || token = .blockEnd

/-- Whether a token ends an item of a block sequence. -/
def endsItem (token : Token) : Bool :=
  token = .blockEntry || token = .blockEnd

/-- Whether a token ends a part of an entry in a flow collection with the given end. -/
def endsFlowPart (stop token : Token) : Bool :=
  token = .flowEntry || token = stop

/-- The kind of place where a node stands: what may begin there besides scalars and flow
collections. -/
inductive Place where
  /-- In a flow collection, where no block begins. -/
  | flow
  /-- In a block. -/
  | block
  /-- In a block mapping, where a sequence may stand at the same column. -/
  | entry
deriving DecidableEq, Repr

mutual
/-- A node. The steps of this function and the following ones bound the number of tokens. -/
def node (handles : List (String × String)) : (steps : Nat) → Place → ReadNodes Node
  | 0, _ => failure
  | steps + 1, place => do
      if let some (.alias name) ← next? then
        skip
        return .alias (← resolve name)
      let marks ← marks handles
      match ← next? with
      | some (.scalar text isPlain) =>
          skip
          return .scalar (marksOfScalar marks) text isPlain
      | some .flowSequenceStart =>
          skip
          return .sequence marks (← flowItems handles steps true)
      | some .flowMappingStart =>
          skip
          return .mapping marks (← flowEntries handles steps true)
      | some .blockEntry =>
          if place = .entry then return .sequence marks (← flatItems handles steps)
          else markedNothing marks
      | some .blockSequenceStart =>
          if place = .flow then markedNothing marks
          else
            skip
            return .sequence marks (← blockItems handles steps)
      | some .blockMappingStart =>
          if place = .flow then markedNothing marks
          else
            skip
            return .mapping marks (← blockEntries handles steps)
      | _ => markedNothing marks

/-- A node, or nothing before a token that ends its place. -/
def nodeUnless (handles : List (String × String)) (isEnd : Token → Bool) :
    (steps : Nat) → Place → ReadNodes Node
  | 0, _ => failure
  | steps + 1, place => do
      if (← next?).any isEnd then return .nothing else node handles steps place

def blockItems (handles : List (String × String)) : (steps : Nat) → ReadNodes (List Node)
  | 0 => failure
  | steps + 1 => do
      if ← take .blockEntry then
        let item ← nodeUnless handles endsItem steps .block
        return item :: (← blockItems handles steps)
      else if ← take .blockEnd then return []
      else failure

/-- The items of a sequence that has no block of its own. -/
def flatItems (handles : List (String × String)) : (steps : Nat) → ReadNodes (List Node)
  | 0 => failure
  | steps + 1 => do
      if ← take .blockEntry then
        let item ← nodeUnless handles (fun token => endsItem token || endsMappingPart token) steps
          .block
        return item :: (← flatItems handles steps)
      else return []

def blockEntries (handles : List (String × String)) :
    (steps : Nat) → ReadNodes (List (Node × Node))
  | 0 => failure
  | steps + 1 => do
      if ← take .key then
        let key ← nodeUnless handles endsMappingPart steps .entry
        let value ← if ← take .value then nodeUnless handles endsMappingPart steps .entry
          else pure .nothing
        return (key, value) :: (← blockEntries handles steps)
      else if ← take .blockEnd then return []
      else failure

/-- The value of an entry in a flow collection with the given end. -/
def flowValue (handles : List (String × String)) (stop : Token) : (steps : Nat) → ReadNodes Node
  | 0 => failure
  | steps + 1 => do
      if ← take .value then nodeUnless handles (endsFlowPart stop) steps .flow
      else return .nothing

/-- The only entry of a mapping that stands as an item of a flow sequence. If its key is nothing,
the token after it is passed over, so that its value is nothing too. -/
def singleEntry (handles : List (String × String)) : (steps : Nat) → ReadNodes (Node × Node)
  | 0 => failure
  | steps + 1 => do
      let stop : Token := .flowSequenceEnd
      if (← next?).any fun token => token = .value || endsFlowPart stop token then
        skip
        return (.nothing, ← flowValue handles stop steps)
      else
        let key ← node handles steps .flow
        return (key, ← flowValue handles stop steps)

/-- The items of a flow sequence up to its end. Items after the first one follow a comma. -/
def flowItems (handles : List (String × String)) :
    (steps : Nat) → (isFirst : Bool) → ReadNodes (List Node)
  | 0, _ => failure
  | steps + 1, isFirst => do
      if ← take .flowSequenceEnd then return []
      if !isFirst then
        if !(← take .flowEntry) then failure
      if ← take .key then
        let entry ← singleEntry handles steps
        return .mapping ⟨none, none⟩ [entry] :: (← flowItems handles steps false)
      else if ← take .flowSequenceEnd then return []
      else
        let item ← node handles steps .flow
        return item :: (← flowItems handles steps false)

/-- The entries of a flow mapping up to its end. Entries after the first one follow a comma. -/
def flowEntries (handles : List (String × String)) :
    (steps : Nat) → (isFirst : Bool) → ReadNodes (List (Node × Node))
  | 0, _ => failure
  | steps + 1, isFirst => do
      let stop : Token := .flowMappingEnd
      if ← take stop then return []
      if !isFirst then
        if !(← take .flowEntry) then failure
      if ← take .key then
        let key ← nodeUnless handles (fun token => token = .value || endsFlowPart stop token) steps
          .flow
        let value ← flowValue handles stop steps
        return (key, value) :: (← flowEntries handles steps false)
      else if ← take stop then return []
      else
        let key ← node handles steps .flow
        return (key, .nothing) :: (← flowEntries handles steps false)
end

/-- What the tags with the usual handles stand for. -/
def usualHandles : List (String × String) :=
  [(primaryHandle, "!"), (secondaryHandle, "tag:yaml.org,2002:")]

/-- The handles that directives declare, given whether a version is declared already. A version is
declared once at most and has to be a known one, a handle is declared once at most. -/
def directives (handles : List (String × String)) (hasVersion : Bool) :
    List Token → Option (List (String × String) × List Token)
  | .versionDirective major minor :: rest =>
      if hasVersion || major ≠ 1 || (minor ≠ 1 && minor ≠ 2) then none
      else directives handles true rest
  | .tagDirective handle base :: rest =>
      if (handles.lookup handle).isSome then none
      else directives (handles ++ [(handle, base)]) hasVersion rest
  | rest => some (handles, rest)

def isDirective : Token → Bool
  | .versionDirective _ _ | .tagDirective _ _ => true
  | _ => false

/-- Whether the content of a document is nothing, given the tokens after its start. -/
def isEmptyDocument (tokens : List Token) : Bool :=
  tokens.head?.all fun token => isDirective token || token = .documentStart || token = .documentEnd

/-- The tokens of the content of a document, the handles that are declared for it, and whether its
start is marked. -/
def documentStart? (tokens : List Token) :
    Option (List (String × String) × Bool × List Token) := do
  let (handles, rest) ← directives [] false tokens
  match rest with
  | .documentStart :: content => return (handles ++ usualHandles, true, content)
  | _ =>
      if tokens.head?.any isDirective then none
      else return (usualHandles, false, tokens)

/-- The document that tokens make up; `none` within if there is no document. -/
def document? (tokens : List Token) : Option (Option Node) := do
  if tokens.isEmpty then return none
  let (handles, isMarked, content) ← documentStart? tokens
  if isMarked && isEmptyDocument content then
    if content.all (· = .documentEnd) then return some .nothing else failure
  let start : NodeReader := ⟨content, .empty⟩
  let (document, state) ← (node handles (3 * content.length + 3) .block) start
  if state.tokens.all (· = .documentEnd) then return some document else failure

end NodeReader

/-- The document that tokens make up; `none` within if there is no document. -/
def Node.ofTokens? (tokens : List Token) : Option (Option Node) :=
  NodeReader.document? tokens

end SchemaWire.Yaml
