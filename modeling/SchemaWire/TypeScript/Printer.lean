import SchemaWire.Text.Lines
import SchemaWire.TypeScript.Escape
import SchemaWire.TypeScript.Syntax

/-!
The text of generated TypeScript. Quoting, escaping and the indentation by two spaces happen
here, so the rest of the library builds syntax only.
-/
namespace SchemaWire.TypeScript

/-- Puts a separator between texts. -/
def joinWith (sep : String) : List String → String
  | [] => ""
  | [text] => text
  | text :: texts => text ++ sep ++ joinWith sep texts

def Literal.print : Literal → String
  | .string text => stringLiteral text
  | .int value => toString value.toInt
  | .bool true => "true"
  | .bool false => "false"
  | .null => "null"

def PrimitiveTy.print : PrimitiveTy → String
  | .string => "string"
  | .number => "number"
  | .boolean => "boolean"
  | .null => "null"
  | .undefined => "undefined"
  | .any => "any"

mutual
def Ty.print : Ty → String
  | .primitive kind => kind.print
  | .array element => "Array<" ++ element.print ++ ">"
  | .union members => joinWith " | " (Ty.printAll members)
  | .record key value => "Record<" ++ key.print ++ ", " ++ value.print ++ ">"
  | .literal value => value.print
  | .named name => name
  | .generic name args => name ++ "<" ++ joinWith ", " (Ty.printAll args) ++ ">"

def Ty.printAll : List Ty → List String
  | [] => []
  | ty :: rest => ty.print :: Ty.printAll rest
end

theorem Ty.printAll_eq_map (tys : List Ty) : Ty.printAll tys = tys.map Ty.print := by
  induction tys with
  | nil => rfl
  | cons ty rest ih => rw [Ty.printAll, ih, List.map_cons]

def Binder.print : Binder → String
  | .variable name => name
  | .items names => "[" ++ joinWith ", " names ++ "]"

def Param.print (param : Param) : String :=
  let mark := if param.optional then "?" else ""
  match param.ty with
  | some ty => param.binder.print ++ mark ++ ": " ++ ty.print
  | none => param.binder.print ++ mark

def printParams (params : List Param) : String :=
  joinWith ", " (params.map Param.print)

def BinaryOp.print : BinaryOp → String
  | .strictEqual => "==="
  | .times => "*"
  | .divide => "/"

/-- Whether the expression is an object literal, which as the body of an arrow function would
read as a block. -/
def Expr.isObject : Expr → Bool
  | .object _ => true
  | _ => false

/-- Whether `!` may stand before the expression without parentheses. -/
def Expr.isNegatable : Expr → Bool
  | .ident _ | .member _ _ | .call _ _ => true
  | _ => false

mutual
/-- An expression. No parentheses are added but around the object body of an arrow function and
after `!`. -/
def Expr.print : Expr → String
  | .ident name => name
  | .literal value => value.print
  | .call callee args => callee.print ++ "(" ++ joinWith ", " (Expr.printAll args) ++ ")"
  | .construct callee args =>
      "new " ++ callee.print ++ "(" ++ joinWith ", " (Expr.printAll args) ++ ")"
  | .arrow params body =>
      if body.isObject then "(" ++ printParams params ++ ") => (" ++ body.print ++ ")"
      else "(" ++ printParams params ++ ") => " ++ body.print
  | .object [] => "\x7b\x7d"
  | .object entries => "\x7b " ++ joinWith ", " (Expr.printEntries entries) ++ " \x7d"
  | .member owner property => memberAccess owner.print property
  | .optionalMember owner property => owner.print ++ "?." ++ property
  | .template parts => "`" ++ Expr.printParts parts ++ "`"
  | .await value => "await " ++ value.print
  | .negate value =>
      if value.isNegatable then "!" ++ value.print else "!(" ++ value.print ++ ")"
  | .binary left op right => left.print ++ " " ++ op.print ++ " " ++ right.print
  | .conditional condition whenTrue whenFalse =>
      condition.print ++ " ? " ++ whenTrue.print ++ " : " ++ whenFalse.print
  | .array items => "[" ++ joinWith ", " (Expr.printAll items) ++ "]"
  | .cast value ty => value.print ++ " as " ++ ty.print
  | .raw text => text

def Expr.printAll : List Expr → List String
  | [] => []
  | value :: rest => value.print :: Expr.printAll rest

/-- The entries of an object literal, each `key: value` or `...value`. -/
def Expr.printEntries : List ObjectEntry → List String
  | [] => []
  | .property key value :: rest =>
      (propertyKey key ++ ": " ++ value.print) :: Expr.printEntries rest
  | .spread value :: rest => ("..." ++ value.print) :: Expr.printEntries rest

def Expr.printParts : List TemplatePart → String
  | [] => ""
  | .text value :: rest => escapeTemplate value ++ Expr.printParts rest
  | .hole value :: rest => "$\x7b" ++ value.print ++ "\x7d" ++ Expr.printParts rest
end

theorem Expr.printAll_eq_map (values : List Expr) :
    Expr.printAll values = values.map Expr.print := by
  induction values with
  | nil => rfl
  | cons value rest ih => rw [Expr.printAll, ih, List.map_cons]

/-- The type after a colon, nothing where there is none. -/
def printTyped : Option Ty → String
  | some ty => ": " ++ ty.print
  | none => ""

/-- Two spaces for each level. -/
def indentation : Nat → String
  | 0 => ""
  | level + 1 => "  " ++ indentation level

/-- A line of raw text; empty lines are not indented. -/
def printRawLine (level : Nat) (line : String) : String :=
  if line = "" then "\n" else indentation level ++ line ++ "\n"

mutual
/-- A statement at an indentation level, with the line feed that ends it. -/
def Stmt.print (level : Nat) : Stmt → String
  | .const name ty value =>
      indentation level ++ "const " ++ name ++ printTyped ty ++ " = " ++ value.print ++ ";\n"
  | .ret (some value) => indentation level ++ "return " ++ value.print ++ ";\n"
  | .ret none => indentation level ++ "return;\n"
  | .cond condition body =>
      indentation level ++ "if (" ++ condition.print ++ ") \x7b\n" ++
        Stmt.printAll (level + 1) body ++ indentation level ++ "\x7d\n"
  | .throw value => indentation level ++ "throw " ++ value.print ++ ";\n"
  | .raw text => joinWith "" ((Text.lines text).map (printRawLine level))

def Stmt.printAll (level : Nat) : List Stmt → String
  | [] => ""
  | stmt :: rest => stmt.print level ++ Stmt.printAll level rest
end

def printDocLine (line : String) : String :=
  if line = "" then " *\n" else " * " ++ line ++ "\n"

/-- A documentation comment, nothing where there are no lines. -/
def printDoc : List String → String
  | [] => ""
  | doc => "/**\n" ++ joinWith "" (doc.map printDocLine) ++ " */\n"

def Function.print (function : Function) : String :=
  printDoc function.doc ++
    (if function.isExported then "export " else "") ++
    (if function.isAsync then "async " else "") ++
    "function " ++ function.name ++ "(" ++ printParams function.params ++ ")" ++
    printTyped function.result ++
    (match function.body with
      | [] => " \x7b\x7d\n"
      | body => " \x7b\n" ++ Stmt.printAll 1 body ++ "\x7d\n")

/-- A statement at the top level of a module; raw text stands as it is, on lines of its own. -/
def Stmt.printTop : Stmt → String
  | .raw text => text ++ "\n"
  | stmt => stmt.print 0

def Declaration.print : Declaration → String
  | .function declared => declared.print
  | .block body => joinWith "" (body.map Stmt.printTop)

def Property.print (property : Property) : String :=
  propertyKey property.name ++ ": " ++ property.ty.print

/-- A property on its line, under its documentation. -/
def Property.printLines (property : Property) : String :=
  (match property.doc with
    | some doc => "  /** " ++ doc ++ " */\n"
    | none => "") ++
  "  " ++ property.print ++ ";\n"

/-- A member of an enum, whose value is its own name. -/
def printMember (member : String) : String :=
  "  " ++ propertyKey member ++ " = " ++ stringLiteral member ++ ",\n"

def TypeDecl.print (decl : TypeDecl) : String :=
  (if decl.isExported then "export " else "") ++
    (match decl.body with
      | .object [] => "type " ++ decl.name ++ " = \x7b\x7d;\n"
      | .object properties =>
          "type " ++ decl.name ++ " = \x7b\n" ++
            joinWith "" (properties.map Property.printLines) ++ "\x7d;\n"
      | .enumeration [] => "enum " ++ decl.name ++ " \x7b\x7d\n"
      | .enumeration members =>
          "enum " ++ decl.name ++ " \x7b\n" ++ joinWith "" (members.map printMember) ++ "\x7d\n")

/-- A module: its parts in order, an empty line after the header and after each declaration. -/
def Module.print (module : Module) : String :=
  joinWith "" (module.header.map fun line => "// " ++ line ++ "\n") ++
    (if module.header = [] then "" else "\n") ++
    joinWith "" (module.preamble.map fun helper => helper.print ++ "\n") ++
    joinWith "" (module.types.map fun decl => decl.print ++ "\n") ++
    joinWith "" (module.functions.map fun declared => declared.print ++ "\n")

end SchemaWire.TypeScript
