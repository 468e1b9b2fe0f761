import SchemaWire.TypeScript.Printer

/-!
Conversion functions between wire values and rich values: their directions and their names.
-/
namespace SchemaWire

/-- From wire values to rich ones, or back. -/
inductive Direction where
  | fromWire
  | toWire
deriving DecidableEq, Repr

/-- The name of the function that converts the values of a declared type. -/
def Direction.functionName (typeName : String) : Direction → String
  | fromWire => "get" ++ typeName ++ "FromWire"
  | toWire => "convert" ++ typeName ++ "ToWire"

/-- A conversion function, and the name of the type whose values it converts. -/
structure WireFunction where
  target : String
  declared : TypeScript.Function
deriving Repr

def WireFunction.name (function : WireFunction) : String :=
  function.declared.name

def WireFunction.source (function : WireFunction) : String :=
  function.declared.print

end SchemaWire
