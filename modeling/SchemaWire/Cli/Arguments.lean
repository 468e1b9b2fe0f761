/-!
The command line: what its arguments ask for. Arguments are read from left to right; the first one
that asks for help or cannot be accepted decides.
-/
namespace SchemaWire.Cli

structure GenerateOptions where
  config : Option String
  schema : Option String
  out : Option String
  format : Bool
  check : Bool
deriving DecidableEq, Repr

inductive HelpTopic where
  | program
  | generate
  | validate
  | help
deriving DecidableEq, Repr

inductive Command where
  /-- Nothing in particular. -/
  | overview
  | help (topic : HelpTopic)
  | version
  | generate (options : GenerateOptions)
  | validate (schema : String)
deriving DecidableEq, Repr

/-- What an argument looks like. -/
inductive Argument where
  /-- Two dashes: no options follow. -/
  | separator
  /-- An option with a long name, and a value after an equals sign. -/
  | long (name : String) (value : Option String)
  /-- Options with short names, by the first of them. -/
  | short (name : Char)
  | value (text : String)
deriving DecidableEq, Repr

namespace Argument

/-- An option without its dashes. -/
def ofLong (chars : List Char) : Argument :=
  let value := chars.dropWhile (· ≠ '=')
  .long (String.ofList (chars.takeWhile (· ≠ '=')))
    (if value.isEmpty then none else some (String.ofList (value.drop 1)))

/-- What a text looks like as an argument. A single dash is a value. -/
def ofText (text : String) : Argument :=
  match text.toList with
  | ['-', '-'] => .separator
  | '-' :: '-' :: rest => ofLong rest
  | '-' :: name :: _ => .short name
  | _ => .value text

end Argument

/-- Why the options of a command are not read to their end. -/
inductive Stop where
  | help
  | misuse
deriving DecidableEq, Repr

/-- The options of a command: those that take a value, and those that do not. -/
structure OptionNames where
  valued : List String
  flags : List String

/-- The options that are given, each with its value. No option is given twice, and no value is
empty or looks like an option. -/
def readOptions (names : OptionNames) (given : List (String × String)) :
    List String → Except Stop (List (String × String))
  | [] => .ok given
  | argument :: rest =>
      match Argument.ofText argument with
      | .separator => if rest.isEmpty then .ok given else .error .misuse
      | .value _ => .error .misuse
      | .short name => .error (if name = 'h' then .help else .misuse)
      | .long "help" none => .error .help
      | .long name value =>
          if (given.lookup name).isSome then .error .misuse
          else if names.flags.contains name && value.isNone then
            readOptions names ((name, "") :: given) rest
          else if !names.valued.contains name then .error .misuse
          else
            match value, rest with
            | some value, rest =>
                if value = "" then .error .misuse
                else readOptions names ((name, value) :: given) rest
            | none, next :: rest =>
                if next ≠ "" && Argument.ofText next = .value next then
                  readOptions names ((name, next) :: given) rest
                else .error .misuse
            | none, [] => .error .misuse

def generateOptions : OptionNames :=
  ⟨["config", "schema", "out"], ["format", "check"]⟩

def validateOptions : OptionNames :=
  ⟨["schema"], []⟩

namespace Command

/-- The command of options, or help on it; nothing if they are misused. -/
def ofOptions (topic : HelpTopic) (build : List (String × String) → Option Command) :
    Except Stop (List (String × String)) → Option Command
  | .ok given => build given
  | .error .help => some (.help topic)
  | .error .misuse => none

def generateOf (given : List (String × String)) : Option Command :=
  some (.generate ⟨given.lookup "config", given.lookup "schema", given.lookup "out",
    (given.lookup "format").isSome, (given.lookup "check").isSome⟩)

/-- The command to validate, which needs a schema. -/
def validateOf (given : List (String × String)) : Option Command :=
  (given.lookup "schema").map .validate

def ofName (name : String) (rest : List String) : Option Command :=
  match name, rest with
  | "generate", rest => ofOptions .generate generateOf (readOptions generateOptions [] rest)
  | "validate", rest => ofOptions .validate validateOf (readOptions validateOptions [] rest)
  | "help", [] => some (.help .program)
  | "help", ["generate"] => some (.help .generate)
  | "help", ["validate"] => some (.help .validate)
  | "help", ["help"] => some (.help .help)
  | _, _ => none

/-- The command that arguments ask for; nothing if they are misused. -/
def ofArgs : List String → Option Command
  | [] => some overview
  | argument :: rest =>
      match Argument.ofText argument with
      | .separator => if rest.isEmpty then some overview else none
      | .long "help" none => some (.help .program)
      | .long "version" none => some version
      | .long _ _ => none
      | .short name =>
          if name = 'h' then some (.help .program) else if name = 'V' then some version else none
      | .value name => ofName name rest

end Command

example : Command.ofArgs ["generate", "--schema=a.json", "--out", "-", "--check"] =
    some (.generate ⟨none, some "a.json", some "-", false, true⟩) := by decide +kernel

example : [["generate", "--schema", "--check"], ["validate"], ["generate", "--check", "--check"],
    ["generate", "x"], ["--", "generate"]].map Command.ofArgs =
    [none, none, none, none, none] := by decide +kernel

end SchemaWire.Cli
