import SchemaWire.Proofs.Decimal.NearestDouble
import SchemaWire.Proofs.Semantics.AnyValue
import SchemaWire.Wire.Discriminant

/-!
Integer literals as a running program has them. A numeral denotes the binary64 number nearest to it,
so that two different integers beyond `2 ^ 53` may denote one number. The other literals denote what
they are. The main statement is that nothing but this rounding makes two literals denote the same.
-/
namespace SchemaWire

namespace TypeScript

/-- The number that an integer is rounded to; its sign is kept. -/
def toDouble (value : Int) : Int :=
  value.sign * Decimal.nearestDouble value.natAbs

theorem toDouble_of_natAbs_le {value : Int} (h : value.natAbs ≤ 2 ^ 53) :
    toDouble value = value := by
  rw [toDouble, Decimal.nearestDouble_of_le h, Int.sign_mul_natAbs]

/-- The number is the nearest one that binary64 has, on either side of zero. -/
theorem isNearestDouble_toDouble (value : Int) :
    Decimal.IsNearestDouble value.natAbs (toDouble value).natAbs := by
  have habs : (toDouble value).natAbs = Decimal.nearestDouble value.natAbs := by
    rw [toDouble, Int.natAbs_mul, Int.natAbs_natCast]
    by_cases hzero : value = 0
    · rw [hzero]
      decide +kernel
    · rw [Int.natAbs_sign_of_ne_zero hzero, Nat.one_mul]
  rw [habs]
  exact Decimal.isNearestDouble _

/-- The scalar that a literal denotes, an integer being rounded. -/
def Literal.rounded : Literal → Scalar
  | .string text => .string text
  | .int value => .number (toDouble value.toInt)
  | .bool value => .bool value
  | .null => .null

/-- The rules of a running program: numerals are rounded. -/
def Rules.rounding (member : Operand → String → Except Fault Operand) : Rules :=
  ⟨member, Literal.rounded⟩

end TypeScript

open TypeScript (Value toDouble toDouble_of_natAbs_le)

namespace LiteralValue

/-- The value that the printed literal denotes, an integer being rounded. -/
def denoted (value : LiteralValue) : Value :=
  .scalar value.render.rounded

theorem denoted_int {value : Int64} {number : Int} (h : toDouble value.toInt = number) :
    (LiteralValue.int value).denoted = .scalar (.number number) := by
  rw [← h]
  rfl

/-- Two literals denote the same value only if they are the same or are rounded to it. -/
theorem denoted_eq_iff {first second : LiteralValue} :
    first.denoted = second.denoted ↔
      first = second ∨ ∃ m n, first = .int m ∧ second = .int n ∧
        toDouble m.toInt = toDouble n.toInt := by
  cases first <;> cases second <;>
    simp [denoted, LiteralValue.render, TypeScript.Literal.rounded]
  case int.int m n =>
    exact fun heq => by rw [heq]

end LiteralValue

namespace UnionArms

variable {arms : UnionArms}

/-- No two integers among the literals of the arms are rounded to the same number. -/
def RoundsApart (arms : UnionArms) : Prop :=
  ∀ first ∈ arms, ∀ second ∈ arms, ∀ m n, first.2 = .int m → second.2 = .int n →
    toDouble m.toInt = toDouble n.toInt → m = n

/-- Up to `2 ^ 53` no integer is rounded. -/
theorem roundsApart_of_natAbs_le
    (h : ∀ arm ∈ arms, ∀ n, arm.2 = .int n → n.toInt.natAbs ≤ 2 ^ 53) : arms.RoundsApart := by
  intro first hfirst second hsecond m n hm hn hdouble
  rw [toDouble_of_natAbs_le (h first hfirst m hm), toDouble_of_natAbs_le (h second hsecond n hn)]
    at hdouble
  exact Int64.toInt_inj.mp hdouble

/-- The arms have different literals, so only rounding makes two of them denote the same. -/
theorem roundsApart_iff (hnodup : (arms.map Prod.snd).Nodup) :
    arms.RoundsApart ↔
      ∀ first ∈ arms, ∀ second ∈ arms, first.2.denoted = second.2.denoted → first = second := by
  constructor
  · intro h first hfirst second hsecond hsame
    refine List.inj_on_of_nodup_map hnodup hfirst hsecond ?_
    obtain heq | ⟨m, n, hm, hn, hdouble⟩ := LiteralValue.denoted_eq_iff.mp hsame
    · exact heq
    · rw [hm, hn, h first hfirst second hsecond m n hm hn hdouble]
  · intro h first hfirst second hsecond m n hm hn hdouble
    have heq := h first hfirst second hsecond
      (LiteralValue.denoted_eq_iff.mpr (.inr ⟨m, n, hm, hn, hdouble⟩))
    rw [heq, hn] at hm
    exact (LiteralValue.int.inj hm).symm

end UnionArms

end SchemaWire
