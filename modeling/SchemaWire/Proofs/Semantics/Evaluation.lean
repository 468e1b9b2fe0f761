import SchemaWire.Index.Scope
import SchemaWire.Proofs.Semantics.Value

/-!
Evaluation of expressions. An expression denotes a value, a function, or one of the globals and
methods that conversions use. Declared functions are called through `call`; a program gives it the
bodies of its functions, to a bounded depth of nested calls.
-/
namespace SchemaWire.TypeScript

/-- The values of the local names, inner ones first. -/
abbrev Env := List (String × Value)

/-- What an expression denotes. -/
inductive Operand where
  | value (value : Value)
  | lambda (apply : Value → Except Fault Value)
  | declared (name : String)
  | objectClass
  | dateClass
  | objectEntries
  | objectFromEntries
  | mapOf (items : List Value)
  | timeOf (time : Int)

namespace Operand

/-- What a name denotes: a local value, a global, or a declaration of the module. -/
def ofName (env : Env) (name : String) : Operand :=
  match env.lookup name with
  | some found => value found
  | none =>
      if name = "Object" then objectClass
      else if name = "Date" then dateClass
      else declared name

/-- The value, where the operand is one. -/
def toValue : Operand → Except Fault Value
  | value found => .ok found
  | _ => .error .unmodelled

def member : Operand → String → Except Fault Operand
  | value (.object entries), name => value <$> Value.property entries name
  | value (.derived _ entries), name =>
      match entries.lookup name with
      | some found => .ok (value found)
      | none => .error .unmodelled
  | value (.list items), name => if name = "map" then .ok (mapOf items) else .error .unmodelled
  | value (.date time), name => if name = "getTime" then .ok (timeOf time) else .error .unmodelled
  | value (.scalar .undefined), _ | value (.scalar .null), _ => .error .typeError
  | objectClass, name =>
      if name = "entries" then .ok objectEntries
      else if name = "fromEntries" then .ok objectFromEntries
      else .error .unmodelled
  | _, _ => .error .unmodelled

def apply (call : String → Value → Except Fault Value) : Operand → List Operand → Except Fault Value
  | declared name, [] =>
      if name = HelperName.unreachable then .error .unreachable else .error .unmodelled
  | declared name, [value arg] => call name arg
  | lambda body, [value arg] => body arg
  | objectEntries, [value arg] => arg.entryList
  | objectFromEntries, [value arg] => arg.ofEntryList
  | mapOf items, [lambda body] => Value.list <$> items.mapM body
  | timeOf time, [] => .ok (.scalar (.number time))
  | value _, _ => .error .typeError
  | _, _ => .error .unmodelled

def construct : Operand → List Operand → Except Fault Value
  | dateClass, [value (.scalar (.number time))] => Value.ofTime time
  | _, _ => .error .unmodelled

end Operand

/-- The local names that a binder introduces for a value. -/
def Binder.bind : Binder → Value → Except Fault Env
  | .variable name, arg => .ok [(name, arg)]
  | .items names, .list args =>
      if names.length ≤ args.length then .ok (names.zip args) else .error .unmodelled
  | .items _, _ => .error .unmodelled

/-- The local names of a function of one parameter. -/
def bindArgument : List Param → Value → Except Fault Env
  | [param], arg => param.binder.bind arg
  | _, _ => .error .unmodelled

mutual
def Expr.eval (call : String → Value → Except Fault Value) : Expr → Env → Except Fault Operand
  | .ident name, env => .ok (.ofName env name)
  | .literal constant, _ => .ok (.value (.scalar constant.scalar))
  | .member owner name, env => do
      let operand ← Expr.eval call owner env
      operand.member name
  | .call callee args, env => do
      let function ← Expr.eval call callee env
      let operands ← Expr.evalAll call args env
      let result ← function.apply call operands
      return .value result
  | .construct callee args, env => do
      let function ← Expr.eval call callee env
      let operands ← Expr.evalAll call args env
      let result ← function.construct operands
      return .value result
  | .arrow params body, env =>
      .ok (.lambda fun arg => do
        let bound ← bindArgument params arg
        let operand ← Expr.eval call body (bound ++ env)
        operand.toValue)
  | .object entries, env => do
      let evaluated ← Expr.evalEntries call entries env
      return .value (.ofLiteral evaluated)
  | .binary left op right, env => do
      let first ← Expr.eval call left env
      let firstValue ← first.toValue
      let second ← Expr.eval call right env
      let secondValue ← second.toValue
      let result ← Value.operate op firstValue secondValue
      return .value result
  | .conditional condition whenTrue whenFalse, env => do
      let operand ← Expr.eval call condition env
      let decided ← operand.toValue
      if decided.isTrue then Expr.eval call whenTrue env else Expr.eval call whenFalse env
  | .array items, env => do
      let operands ← Expr.evalAll call items env
      let values ← operands.mapM Operand.toValue
      return .value (.list values)
  | .cast inner _, env => Expr.eval call inner env
  | _, _ => .error .unmodelled

def Expr.evalAll (call : String → Value → Except Fault Value) :
    List Expr → Env → Except Fault (List Operand)
  | [], _ => .ok []
  | expr :: rest, env => do
      let operand ← Expr.eval call expr env
      let operands ← Expr.evalAll call rest env
      return operand :: operands

def Expr.evalEntries (call : String → Value → Except Fault Value) :
    List ObjectEntry → Env → Except Fault (List (String × Value))
  | [], _ => .ok []
  | .property key expr :: rest, env => do
      let operand ← Expr.eval call expr env
      let value ← operand.toValue
      let entries ← Expr.evalEntries call rest env
      return (key, value) :: entries
  | .spread _ :: _, _ => .error .unmodelled
end

/-- The value that a function returns for an argument, if its body is a return statement. -/
def Function.run (call : String → Value → Except Fault Value) (function : Function)
    (arg : Value) : Except Fault Value :=
  match function.body with
  | [.ret (some result)] => do
      let env ← bindArgument function.params arg
      let operand ← result.eval call env
      operand.toValue
  | _ => .error .unmodelled

/-- The value of a call of a function of the program, with calls nested to a depth at most. -/
def invoke (functions : List Function) : Nat → String → Value → Except Fault Value
  | 0, _, _ => .error .depth
  | depth + 1, name, arg =>
      match functions.find? fun function => function.name == name with
      | some function => function.run (invoke functions depth) arg
      | none => .error .unmodelled

end SchemaWire.TypeScript
