import SchemaWire.Config
import SchemaWire.Text.Segments

/-!
Formatting generated code. A formatter is a program that changes the text of a file; which programs
there are is given from outside.
-/
namespace SchemaWire

/-- How a program ended: its status, what it said about errors, and the text of the file then. -/
structure ProgramResult where
  status : Nat
  errors : String
  text : String
deriving DecidableEq, Repr

/-- A program, which is given its arguments before the path of the file, and the text of the
file. -/
abbrev Program := List String → String → ProgramResult

/-- The programs that there are, by their names. -/
abbrev Programs := String → Option Program

inductive FormatFault where
  | noProgram (command : String)
  | failed (command : String) (status : Nat) (errors : String)
deriving DecidableEq, Repr

def FormatFault.message : FormatFault → String
  | noProgram command =>
      "Failed to locate formatter `" ++ command ++ "`: cannot find binary path"
  | failed command status errors =>
      "Formatter `" ++ command ++ "` exited with exit status: " ++ toString status ++ ": " ++
        Text.trim errors

def FormatterConfig.format (config : FormatterConfig) (programs : Programs) (code : String) :
    Except FormatFault String :=
  match programs config.command with
  | none => .error (.noProgram config.command)
  | some program =>
      let result := program config.args code
      if result.status = 0 then .ok result.text
      else .error (.failed config.command result.status result.errors)

end SchemaWire
