import SchemaWire.Proofs.Semantics.Evaluation

/-!
Evaluation over values of any kind. Evaluation as conversions need it leaves open what most
properties of numbers, texts and lists are, and takes integers as they are. Here the properties and
the literals are given by rules. What was open of the properties is filled in by whatever the values
inherit, so that reading a property fails only of `undefined` and of `null`. The main statement is
that under the exact rules this is the evaluation of conversions.
-/
namespace SchemaWire.TypeScript

/-- What a property of an operand is, and what a literal denotes. -/
structure Rules where
  member : Operand → String → Except Fault Operand
  literal : Literal → Scalar

/-- The rules of conversions, under which numbers are exact. -/
def Rules.exact : Rules :=
  ⟨Operand.member, Literal.scalar⟩

variable (rules : Rules) (call : String → Value → Except Fault Value)

mutual
/-- What an expression denotes under the rules. -/
def Expr.evalWith : Expr → Env → Except Fault Operand
  | .ident name, env => .ok (.ofName env name)
  | .literal constant, _ => .ok (.value (.scalar (rules.literal constant)))
  | .member owner name, env => do
      let operand ← Expr.evalWith owner env
      rules.member operand name
  | .call callee args, env => do
      let function ← Expr.evalWith callee env
      let operands ← Expr.evalAllWith args env
      let result ← function.apply call operands
      return .value result
  | .construct callee args, env => do
      let function ← Expr.evalWith callee env
      let operands ← Expr.evalAllWith args env
      let result ← function.construct operands
      return .value result
  | .arrow params body, env =>
      .ok (.lambda fun arg => do
        let bound ← bindArgument params arg
        let operand ← Expr.evalWith body (bound ++ env)
        operand.toValue)
  | .object entries, env => do
      let evaluated ← Expr.evalEntriesWith entries env
      return .value (.ofLiteral evaluated)
  | .binary left op right, env => do
      let first ← Expr.evalWith left env
      let firstValue ← first.toValue
      let second ← Expr.evalWith right env
      let secondValue ← second.toValue
      let result ← Value.operate op firstValue secondValue
      return .value result
  | .conditional condition whenTrue whenFalse, env => do
      let operand ← Expr.evalWith condition env
      let decided ← operand.toValue
      if decided.isTrue then Expr.evalWith whenTrue env else Expr.evalWith whenFalse env
  | .array items, env => do
      let operands ← Expr.evalAllWith items env
      let values ← operands.mapM Operand.toValue
      return .value (.list values)
  | .cast inner _, env => Expr.evalWith inner env
  | _, _ => .error .unmodelled

/-- What several expressions denote under the rules. -/
def Expr.evalAllWith : List Expr → Env → Except Fault (List Operand)
  | [], _ => .ok []
  | expr :: rest, env => do
      let operand ← Expr.evalWith expr env
      let operands ← Expr.evalAllWith rest env
      return operand :: operands

/-- The entries of an object literal under the rules. -/
def Expr.evalEntriesWith : List ObjectEntry → Env → Except Fault (List (String × Value))
  | [], _ => .ok []
  | .property key expr :: rest, env => do
      let operand ← Expr.evalWith expr env
      let value ← operand.toValue
      let entries ← Expr.evalEntriesWith rest env
      return (key, value) :: entries
  | .spread _ :: _, _ => .error .unmodelled
end

mutual
theorem Expr.evalWith_exact : (expr : Expr) → (env : Env) →
    expr.evalWith .exact call env = expr.eval call env
  | .ident name, env => by rw [Expr.evalWith, Expr.eval]
  | .literal constant, env => by
      rw [Expr.evalWith, Expr.eval]
      rfl
  | .member owner name, env => by
      rw [Expr.evalWith, Expr.eval, Expr.evalWith_exact owner]
      rfl
  | .call callee args, env => by
      rw [Expr.evalWith, Expr.eval, Expr.evalWith_exact callee, Expr.evalAllWith_exact args]
  | .construct callee args, env => by
      rw [Expr.evalWith, Expr.eval, Expr.evalWith_exact callee, Expr.evalAllWith_exact args]
  | .arrow params body, env => by
      rw [Expr.evalWith, Expr.eval]
      simp only [Expr.evalWith_exact body]
  | .object entries, env => by
      rw [Expr.evalWith, Expr.eval, Expr.evalEntriesWith_exact entries]
  | .binary left op right, env => by
      rw [Expr.evalWith, Expr.eval, Expr.evalWith_exact left, Expr.evalWith_exact right]
  | .conditional condition whenTrue whenFalse, env => by
      rw [Expr.evalWith, Expr.eval, Expr.evalWith_exact condition, Expr.evalWith_exact whenTrue,
        Expr.evalWith_exact whenFalse]
  | .array items, env => by rw [Expr.evalWith, Expr.eval, Expr.evalAllWith_exact items]
  | .cast inner ty, env => by rw [Expr.evalWith, Expr.eval, Expr.evalWith_exact inner]
  | .optionalMember owner property, env => by rw [Expr.evalWith, Expr.eval] <;> simp
  | .template parts, env => by rw [Expr.evalWith, Expr.eval] <;> simp
  | .await value, env => by rw [Expr.evalWith, Expr.eval] <;> simp
  | .negate value, env => by rw [Expr.evalWith, Expr.eval] <;> simp
  | .raw text, env => by rw [Expr.evalWith, Expr.eval] <;> simp

theorem Expr.evalAllWith_exact : (exprs : List Expr) → (env : Env) →
    Expr.evalAllWith .exact call exprs env = Expr.evalAll call exprs env
  | [], env => by rw [Expr.evalAllWith, Expr.evalAll]
  | expr :: rest, env => by
      rw [Expr.evalAllWith, Expr.evalAll, Expr.evalWith_exact expr, Expr.evalAllWith_exact rest]

theorem Expr.evalEntriesWith_exact : (entries : List ObjectEntry) → (env : Env) →
    Expr.evalEntriesWith .exact call entries env = Expr.evalEntries call entries env
  | [], env => by rw [Expr.evalEntriesWith, Expr.evalEntries]
  | .property key expr :: rest, env => by
      rw [Expr.evalEntriesWith, Expr.evalEntries, Expr.evalWith_exact expr,
        Expr.evalEntriesWith_exact rest]
  | .spread value :: rest, env => by rw [Expr.evalEntriesWith, Expr.evalEntries]
end

/-- The value that a function returns for an argument under the rules. -/
def Function.runWith (function : Function) (arg : Value) : Except Fault Value :=
  match function.body with
  | [.ret (some result)] => do
      let env ← bindArgument function.params arg
      let operand ← result.evalWith rules call env
      operand.toValue
  | _ => .error .unmodelled

/-- The value of a call of a function of the program under the rules. -/
def invokeWith (functions : List Function) : Nat → String → Value → Except Fault Value
  | 0, _, _ => .error .depth
  | depth + 1, name, arg =>
      match functions.find? fun function => function.name == name with
      | some function => function.runWith rules (invokeWith functions depth) arg
      | none => .error .unmodelled

theorem Function.runWith_exact :
    Function.runWith .exact call = Function.run call := by
  have heval : Expr.evalWith .exact call = Expr.eval call := by
    funext expr env
    exact Expr.evalWith_exact call expr env
  funext function arg
  rw [Function.runWith, heval]
  rfl

/-- Under the exact rules a call has the value that it has for conversions. -/
theorem invokeWith_exact (functions : List Function) (depth : Nat) :
    invokeWith .exact functions depth = invoke functions depth := by
  induction depth with
  | zero => rfl
  | succ depth ih =>
      funext name arg
      rw [invokeWith, ih, Function.runWith_exact]
      rfl

/-! Properties of values of any kind. -/

/-- Whether the value has no properties. -/
def Value.isNullish : Value → Bool
  | scalar .undefined | scalar .null => true
  | _ => false

/-- A property of what an expression denotes. Where the rule of conversions leaves it open, a value
has what it inherits under the name. -/
def Operand.memberOf (inherited : Value → String → Value) (operand : Operand) (name : String) :
    Except Fault Operand :=
  match operand, operand.member name with
  | value owner, .error .unmodelled => .ok (value (inherited owner name))
  | _, result => result

variable {owner : Value} {name : String}

/-- What the rule of conversions gives is kept. -/
theorem Operand.memberOf_of_member (inherited : Value → String → Value) {operand found : Operand}
    (h : operand.member name = .ok found) :
    operand.memberOf inherited name = .ok found := by
  unfold memberOf
  rw [h]
  cases operand <;> rfl

/-- Reading a property fails of `undefined` and of `null`. -/
theorem Operand.memberOf_of_isNullish (inherited : Value → String → Value)
    (h : owner.isNullish = true) (name : String) :
    (value owner).memberOf inherited name = .error .typeError := by
  cases owner with
  | scalar constant => cases constant <;> first | rfl | cases h
  | _ => cases h

/-- Every other value has a property of every name; under the names of the built-in methods it is
a value unless the owner is a list or a date. -/
theorem Operand.exists_memberOf (inherited : Value → String → Value)
    (h : owner.isNullish = false) (hname : name ≠ "map" ∧ name ≠ "getTime") :
    ∃ found, (value owner).memberOf inherited name = .ok (value found) := by
  unfold memberOf
  cases owner with
  | scalar constant => cases constant <;> first | exact ⟨_, rfl⟩ | cases h
  | date time => exact ⟨inherited (.date time) name, by simp [member, hname.2]⟩
  | list items => exact ⟨inherited (.list items) name, by simp [member, hname.1]⟩
  | object entries =>
      rw [member, Value.property]
      cases entries.lookup name with
      | some found => exact ⟨found, rfl⟩
      | none =>
          by_cases hinherited : name ∈ Value.inheritedProperties
          · exact ⟨inherited (.object entries) name, by simp [hinherited]⟩
          · exact ⟨.scalar .undefined, by simp [hinherited]⟩
  | derived prototype entries =>
      rw [member]
      cases entries.lookup name with
      | some found => exact ⟨found, rfl⟩
      | none => exact ⟨inherited (.derived prototype entries) name, rfl⟩

end SchemaWire.TypeScript
