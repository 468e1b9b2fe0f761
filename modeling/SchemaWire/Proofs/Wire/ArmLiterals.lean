import SchemaWire.Proofs.Reading.CodeUnits
import SchemaWire.Proofs.Reading.Lexeme
import SchemaWire.Proofs.Semantics.Dispatch

/-!
What the literals of a dispatch denote when the program runs. A string denotes its code units, and a
numeral the binary64 number nearest to it. The literals of a union are different, and so are the
constants that they denote, unless two of them are integers with the same nearest number; beyond
`2 ^ 53` there are such integers.
-/
namespace SchemaWire

namespace TypeScript

/-- The value of a literal while the program runs. Strict equality of two of them is equality: there
is no value among them that differs from itself, and no zero with a sign. -/
inductive Constant where
  | string (units : List Nat)
  | number (value : Int)
  | bool (value : Bool)
  | null
deriving DecidableEq, Repr

/-- The constant that a literal denotes. -/
def Literal.constant : Literal → Constant
  | .string text => .string (codeUnits text.toList)
  | .int value => .number (toDouble value.toInt)
  | .bool value => .bool value
  | .null => .null

def Lexeme.constant? : Lexeme → Option Constant
  | .string text => some (.string (codeUnits text.toList))
  | .numeral value => some (.number (toDouble value.toInt))
  | .word text =>
      if text = "true" then some (.bool true)
      else if text = "false" then some (.bool false)
      else if text = "null" then some .null
      else none
  | .mark _ => none

/-- The constant that a text denotes if it is one literal. -/
def constantOf? (text : String) : Option Constant :=
  match lexemes? text.toList with
  | some [lexeme] => lexeme.constant?
  | _ => none

theorem constantOf?_of_spells {text : String} {lexeme : Lexeme} (h : Spells text [lexeme]) :
    constantOf? text = lexeme.constant? := by
  have hread := h [] (by simp [Breaks])
  rw [List.append_nil] at hread
  have hend : lexemes? [] = some [] := by
    rw [lexemes?]
  rw [constantOf?, hread, hend]
  rfl

/-- A printed literal denotes its constant. -/
theorem constantOf?_print (literal : Literal) :
    constantOf? literal.print = some literal.constant := by
  cases literal with
  | string text => exact constantOf?_of_spells (closed_string text).spells
  | int value => exact constantOf?_of_spells (spells_numeral value)
  | bool value =>
      cases value
      · exact constantOf?_of_spells (spells_word (by decide : isBareName "false" = true))
      · exact constantOf?_of_spells (spells_word (by decide : isBareName "true" = true))
  | null => exact constantOf?_of_spells (spells_word (by decide : isBareName "null" = true))

/-- The comparisons of a chain of conditionals, each with what it leads to, in order. -/
def Expr.tests : Expr → List (Literal × Expr)
  | .conditional (.binary _ .strictEqual (.literal value)) taken otherwise =>
      (value, taken) :: otherwise.tests
  | _ => []

/-- What a chain of conditionals leads to if the compared property is the constant. -/
def Expr.takenBy (expr : Expr) (mark : Constant) : Option Expr :=
  (expr.tests.find? fun test => test.1.constant = mark).map Prod.snd

end TypeScript

open TypeScript (Constant Expr constantOf? constantOf?_print toDouble)

/-- Two literals denote the same constant exactly if they denote the same value. -/
theorem LiteralValue.constant_eq_iff {first second : LiteralValue} :
    first.render.constant = second.render.constant ↔ first.denoted = second.denoted := by
  cases first <;> cases second <;>
    simp [denoted, LiteralValue.render, TypeScript.Literal.constant, TypeScript.Literal.rounded]
  case str.str text other =>
    constructor
    · exact fun h => String.toList_inj.mp (TypeScript.codeUnits_injective h)
    · exact fun h => by rw [h]

/-- The arms have different literals, so only rounding makes two of their constants the same. -/
theorem UnionArms.nodup_constants_iff {arms : UnionArms} (hnodup : (arms.map Prod.snd).Nodup) :
    (arms.map fun arm => arm.2.render.constant).Nodup ↔ arms.RoundsApart := by
  rw [roundsApart_iff hnodup, List.nodup_map_iff_inj_on (hnodup.of_map Prod.snd)]
  simp only [LiteralValue.constant_eq_iff]

namespace TypeIndex

variable {index : TypeIndex} {dir : Direction} {field : String} {src result : Expr}
  {arms : UnionArms}

/-- A chain has one comparison for each arm, which leads to the conversion of its variant. -/
theorem tests_dispatchArms (h : index.dispatchArms dir field src arms = .ok result) :
    List.Forall₂ (fun arm test => test.1 = arm.2.render ∧
      index.modelCall dir arm.1 src = .ok test.2) arms result.tests := by
  induction arms generalizing result with
  | nil =>
      cases h
      exact .nil
  | cons arm rest ih =>
      obtain ⟨converted, otherwise, hcall, hrest, rfl⟩ := dispatchArms_cons_eq_ok_iff.mp h
      exact .cons ⟨rfl, hcall⟩ (ih hrest)

theorem literals_dispatchArms (h : index.dispatchArms dir field src arms = .ok result) :
    result.tests.map Prod.fst = arms.map fun arm => arm.2.render := by
  have htests := tests_dispatchArms h
  generalize result.tests = tests at htests
  clear h
  induction htests with
  | nil => rfl
  | cons hfirst _ ih => rw [List.map_cons, List.map_cons, ih, hfirst.1]

/-- Where the constants are different, the constant of an arm is not found before the arm. -/
theorem takenBy_of_nodup (h : index.dispatchArms dir field src arms = .ok result)
    (hnodup : (arms.map fun arm => arm.2.render.constant).Nodup) {arm : ModelPath × LiteralValue}
    (harm : arm ∈ arms) :
    ∃ call, index.modelCall dir arm.1 src = .ok call ∧
      result.takenBy arm.2.render.constant = some call := by
  have htests := tests_dispatchArms h
  rw [Expr.takenBy]
  generalize result.tests = tests at htests
  clear h
  induction htests with
  | nil => cases harm
  | @cons first test rest tests hfirst hrest ih =>
      rw [List.map_cons, List.nodup_cons] at hnodup
      obtain ⟨hliteral, hcall⟩ := hfirst
      rcases List.mem_cons.mp harm with rfl | hin
      · exact ⟨test.2, hcall, by simp [hliteral]⟩
      · have hne : test.1.constant ≠ arm.2.render.constant := by
          rw [hliteral]
          exact fun heq => hnodup.1 (List.mem_map.mpr ⟨arm, hin, heq.symm⟩)
        obtain ⟨call, hmodel, htaken⟩ := ih hnodup.2 hin
        exact ⟨call, hmodel, by simpa [hne] using htaken⟩

/-- The printed literals that a dispatch compares with are those of its arms. They denote different
constants exactly if no two of the integers among them have the same nearest binary64 number, which
up to `2 ^ 53` is so, and then the literal of each arm leads to the conversion of its variant. -/
theorem dispatch_constants_nodup_iff {variants : List ModelPath}
    (hdisc : index.discriminant variants = .ok (field, arms)) (dir : Direction) (src : Expr) :
    ∃ result, index.dispatch dir variants src = .ok result ∧
      (result.tests.map fun test => constantOf? test.1.print) =
        arms.map (fun arm => some arm.2.render.constant) ∧
      ((result.tests.map fun test => constantOf? test.1.print).Nodup ↔ arms.RoundsApart) ∧
      (arms.RoundsApart → ∀ arm ∈ arms, ∃ call, index.modelCall dir arm.1 src = .ok call ∧
        result.takenBy arm.2.render.constant = some call) ∧
      (∀ arm ∈ arms, ∀ n, arm.2 = .int n →
        Decimal.IsNearestDouble n.toInt.natAbs (toDouble n.toInt).natAbs) ∧
      ((∀ arm ∈ arms, ∀ n, arm.2 = .int n → n.toInt.natAbs ≤ 2 ^ 53) → arms.RoundsApart) := by
  obtain ⟨result, hresult⟩ := @exists_dispatch _ dir _ _ hdisc src
  have harms : index.dispatchArms dir field src arms = .ok result := by
    rw [dispatch, hdisc] at hresult
    exact hresult
  have hiff := UnionArms.nodup_constants_iff (discriminant_arms hdisc).1
  have hconstants : (result.tests.map fun test => constantOf? test.1.print) =
      arms.map fun arm => some arm.2.render.constant := by
    have hprinted := congrArg (List.map fun literal => some literal.constant)
      (literals_dispatchArms harms)
    simpa only [List.map_map, Function.comp_def, constantOf?_print] using hprinted
  refine ⟨result, hresult, hconstants, ?_, fun h arm harm => ?_,
    fun _ _ n _ => TypeScript.isNearestDouble_toDouble n.toInt, UnionArms.roundsApart_of_natAbs_le⟩
  · rw [hconstants, ← hiff, ← List.nodup_map_iff (Option.some_injective Constant), List.map_map]
    rfl
  · exact takenBy_of_nodup harms (hiff.mpr h) harm

/-- An index of two models whose literals are different integers with the same nearest number. -/
def wideIndex : TypeIndex :=
  markedIndex [(⟨"app.Even"⟩, .int 9007199254740992), (⟨"app.Odd"⟩, .int 9007199254740993)]

theorem dispatch_constants_nodup_iff_wide :
    ∃ result, wideIndex.dispatch .toWire [⟨"app.Even"⟩, ⟨"app.Odd"⟩] (.ident "root") = .ok result ∧
      (result.tests.map fun test => test.1.print) = ["9007199254740992", "9007199254740993"] ∧
      ¬(result.tests.map fun test => constantOf? test.1.print).Nodup := by
  have hdisc : wideIndex.discriminant [⟨"app.Even"⟩, ⟨"app.Odd"⟩] = .ok ("kind",
      [(⟨"app.Even"⟩, .int 9007199254740992), (⟨"app.Odd"⟩, .int 9007199254740993)]) := rfl
  obtain ⟨result, hresult, _, hiff, _⟩ :=
    dispatch_constants_nodup_iff hdisc .toWire (.ident "root")
  refine ⟨result, hresult, ?_, fun hnodup => ?_⟩
  · cases hresult
    decide +kernel
  · have heq := hiff.mp hnodup (⟨"app.Even"⟩, .int 9007199254740992) (by simp)
      (⟨"app.Odd"⟩, .int 9007199254740993) (by simp) _ _ rfl rfl (by decide +kernel)
    exact absurd heq (by decide)

end TypeIndex

end SchemaWire
