import SchemaWire.Cli.Arguments

/-!
Help texts.
-/
namespace SchemaWire.Cli

/-- Lines, each ended. -/
def textOfLines (lines : List String) : String :=
  String.join (lines.map (· ++ "\n"))

def versionText : String :=
  textOfLines ["tswire 0.1.0"]

def HelpTopic.text : HelpTopic → String
  | program => textOfLines [
      "Generate TypeScript types and wire codecs from a model schema",
      "",
      "Usage: tswire [COMMAND]",
      "",
      "Commands:",
      "  generate  Generate the TypeScript module",
      "  validate  Check that a schema generates cleanly without writing anything",
      "  help      Print this message or the help of the given subcommand(s)",
      "",
      "Options:",
      "  -h, --help     Print help",
      "  -V, --version  Print version"]
  | generate => textOfLines [
      "Generate the TypeScript module",
      "",
      "Usage: tswire generate [OPTIONS]",
      "",
      "Options:",
      "      --config <PATH>  Config file (defaults to ./tswire.toml when present)",
      "      --schema <PATH>  Schema document (JSON or YAML); overrides `schema` in the config",
      "      --out <PATH>     Output file; overrides `output` in the config. Prints to stdout when " ++
        "unset",
      "      --format         Run the external formatter on the generated code",
      "      --check          Compare with the existing output instead of writing; exit 1 when stale",
      "  -h, --help           Print help"]
  | validate => textOfLines [
      "Check that a schema generates cleanly without writing anything",
      "",
      "Usage: tswire validate --schema <PATH>",
      "",
      "Options:",
      "      --schema <PATH>  Schema document (JSON or YAML)",
      "  -h, --help           Print help"]
  | help => textOfLines [
      "Print this message or the help of the given subcommand(s)",
      "",
      "Usage: tswire help [COMMAND]...",
      "",
      "Arguments:",
      "  [COMMAND]...  Print help for the subcommand(s)"]

def misuseText : String :=
  textOfLines ["error: invalid arguments", "", "For more information, try '--help'."]

end SchemaWire.Cli
