/-!
Tokens of YAML text. Indentation is made explicit: blocks start and end with tokens of their own.
-/
namespace SchemaWire.Yaml

inductive Token where
  | versionDirective (major minor : Nat)
  | tagDirective (handle base : String)
  | documentStart
  | documentEnd
  | blockSequenceStart
  | blockMappingStart
  | blockEnd
  | flowSequenceStart
  | flowSequenceEnd
  | flowMappingStart
  | flowMappingEnd
  /-- A dash before an item of a block sequence. -/
  | blockEntry
  /-- A comma in a flow collection. -/
  | flowEntry
  /-- The place where a key of a mapping begins. -/
  | key
  /-- The place where a value of a mapping begins. -/
  | value
  | alias (name : String)
  | anchor (name : String)
  /-- A tag: a handle and what follows it. A tag that is written in full has an empty handle. -/
  | tag (handle suffix : String)
  | scalar (text : String) (isPlain : Bool)
deriving DecidableEq, Repr

end SchemaWire.Yaml
