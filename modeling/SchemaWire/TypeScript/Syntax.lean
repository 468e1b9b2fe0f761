/-!
The TypeScript that the generator writes: types, expressions, statements, functions, type
declarations and modules.
-/
namespace SchemaWire.TypeScript

inductive Literal where
  | string (text : String)
  | int (value : Int64)
  | bool (value : Bool)
  | null
deriving DecidableEq, Repr

inductive PrimitiveTy where
  | string
  | number
  | boolean
  | null
  | undefined
  | any
deriving DecidableEq, Repr

/-- A type. `generic` is a named type applied to others. -/
inductive Ty where
  | primitive (kind : PrimitiveTy)
  | array (element : Ty)
  | union (members : List Ty)
  | record (key value : Ty)
  | literal (value : Literal)
  | named (name : String)
  | generic (name : String) (args : List Ty)
deriving Repr

mutual
def Ty.decEq : (a b : Ty) → Decidable (a = b)
  | .primitive k, .primitive l =>
      if h : k = l then isTrue (by rw [h]) else isFalse (by simpa using h)
  | .array a, .array b =>
      match Ty.decEq a b with
      | isTrue h => isTrue (by rw [h])
      | isFalse h => isFalse (by simpa using h)
  | .union a, .union b =>
      match Ty.decEqList a b with
      | isTrue h => isTrue (by rw [h])
      | isFalse h => isFalse (by simpa using h)
  | .record k v, .record l w =>
      match Ty.decEq k l, Ty.decEq v w with
      | isTrue h, isTrue i => isTrue (by rw [h, i])
      | isFalse h, _ => isFalse (by simp [h])
      | _, isFalse i => isFalse (by simp [i])
  | .literal a, .literal b =>
      if h : a = b then isTrue (by rw [h]) else isFalse (by simpa using h)
  | .named a, .named b =>
      if h : a = b then isTrue (by rw [h]) else isFalse (by simpa using h)
  | .generic a s, .generic b t =>
      if h : a = b then
        match Ty.decEqList s t with
        | isTrue i => isTrue (by rw [h, i])
        | isFalse i => isFalse (by simp [i])
      else isFalse (by simp [h])
  | .primitive _, .array _ | .primitive _, .union _ | .primitive _, .record _ _
  | .primitive _, .literal _ | .primitive _, .named _ | .primitive _, .generic _ _
  | .array _, .primitive _ | .array _, .union _ | .array _, .record _ _ | .array _, .literal _
  | .array _, .named _ | .array _, .generic _ _ | .union _, .primitive _ | .union _, .array _
  | .union _, .record _ _ | .union _, .literal _ | .union _, .named _ | .union _, .generic _ _
  | .record _ _, .primitive _ | .record _ _, .array _ | .record _ _, .union _
  | .record _ _, .literal _ | .record _ _, .named _ | .record _ _, .generic _ _
  | .literal _, .primitive _ | .literal _, .array _ | .literal _, .union _
  | .literal _, .record _ _ | .literal _, .named _ | .literal _, .generic _ _
  | .named _, .primitive _ | .named _, .array _ | .named _, .union _ | .named _, .record _ _
  | .named _, .literal _ | .named _, .generic _ _ | .generic _ _, .primitive _
  | .generic _ _, .array _ | .generic _ _, .union _ | .generic _ _, .record _ _
  | .generic _ _, .literal _ | .generic _ _, .named _ => isFalse (by simp)

def Ty.decEqList : (a b : List Ty) → Decidable (a = b)
  | [], [] => isTrue rfl
  | a :: as, b :: bs =>
      match Ty.decEq a b, Ty.decEqList as bs with
      | isTrue h, isTrue i => isTrue (by rw [h, i])
      | isFalse h, _ => isFalse (by simp [h])
      | _, isFalse i => isFalse (by simp [i])
  | [], _ :: _ | _ :: _, [] => isFalse (by simp)
end

instance : DecidableEq Ty := Ty.decEq

/-- The type extended by `null`: a union takes it as one more member unless it has it already. -/
def Ty.nullable : Ty → Ty
  | .union members =>
      if .primitive .null ∈ members then .union members
      else .union (members ++ [.primitive .null])
  | .primitive .null => .primitive .null
  | other => .union [other, .primitive .null]

/-- What a parameter binds: one variable, or the items of an array in order. -/
inductive Binder where
  | variable (name : String)
  | items (names : List String)
deriving DecidableEq, Repr

structure Param where
  binder : Binder
  ty : Option Ty
  optional : Bool
deriving DecidableEq, Repr

/-- A required parameter with its type. -/
def Param.typed (name : String) (ty : Ty) : Param :=
  ⟨.variable name, some ty, false⟩

/-- A required parameter that takes an array apart. -/
def Param.items (names : List String) : Param :=
  ⟨.items names, none, false⟩

inductive BinaryOp where
  | strictEqual
  | times
  | divide
deriving DecidableEq, Repr

mutual
/-- An expression. `raw` is text that stands in the place of an expression as it is. -/
inductive Expr where
  | ident (name : String)
  | literal (value : Literal)
  | call (callee : Expr) (args : List Expr)
  | construct (callee : Expr) (args : List Expr)
  | arrow (params : List Param) (body : Expr)
  | object (entries : List ObjectEntry)
  | member (object : Expr) (property : String)
  | optionalMember (object : Expr) (property : String)
  | template (parts : List TemplatePart)
  | await (value : Expr)
  | negate (value : Expr)
  | binary (left : Expr) (op : BinaryOp) (right : Expr)
  | conditional (condition whenTrue whenFalse : Expr)
  | array (items : List Expr)
  | cast (value : Expr) (ty : Ty)
  | raw (text : String)
deriving Repr

/-- An entry of an object literal: a property, or all properties of another object. -/
inductive ObjectEntry where
  | property (key : String) (value : Expr)
  | spread (value : Expr)
deriving Repr

/-- A part of a template literal: text, or the value of an expression. -/
inductive TemplatePart where
  | text (value : String)
  | hole (value : Expr)
deriving Repr
end

/-- A statement. `raw` is a block of lines that takes over the indentation. -/
inductive Stmt where
  | const (name : String) (ty : Option Ty) (value : Expr)
  | ret (value : Option Expr)
  | cond (condition : Expr) (body : List Stmt)
  | throw (value : Expr)
  | raw (text : String)
deriving Repr

structure Function where
  name : String
  doc : List String
  params : List Param
  result : Option Ty
  body : List Stmt
  isAsync : Bool
  isExported : Bool
deriving Repr

/-- A function declaration, or a block of statements at the top level of the module. -/
inductive Declaration where
  | function (declared : Function)
  | block (body : List Stmt)
deriving Repr

/-- A function without a name declares nothing: it stands for the statements of its body. -/
def Function.declare (function : Function) : Declaration :=
  if function.name = "" then .block function.body else .function function

def Declaration.text (code : String) : Declaration :=
  .block [.raw code]

/-- A property of an object type, with an optional documentation line. -/
structure Property where
  name : String
  ty : Ty
  doc : Option String
deriving DecidableEq, Repr

/-- What a declared type is: an object type, or an enum of strings. -/
inductive TypeBody where
  | object (properties : List Property)
  | enumeration (members : List String)
deriving DecidableEq, Repr

structure TypeDecl where
  name : String
  body : TypeBody
  isExported : Bool
deriving DecidableEq, Repr

/-- A module: comment lines, helpers, type declarations and functions, in this order. -/
structure Module where
  header : List String
  preamble : List Declaration
  types : List TypeDecl
  functions : List Declaration
deriving Repr

end SchemaWire.TypeScript
