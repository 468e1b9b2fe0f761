import Mathlib.Data.Nat.Dist
import Mathlib.Data.Nat.Log
import SchemaWire.Decimal.Binary64

/-!
The binary64 number nearest to a natural number. Within one power of two the numbers that binary64
has are the multiples of one unit, so the nearest one is the nearest multiple of the unit, and of
two that are equally near the one with an even mantissa. Up to `2 ^ 53` every number is its own
nearest one.
-/
namespace SchemaWire.Decimal

/-- Natural numbers that binary64 has, its greatest one aside: 53 bits and zeros after them. -/
def IsDouble (number : Nat) : Prop :=
  ∃ mantissa exponent, mantissa < 2 ^ 53 ∧ number = mantissa * 2 ^ exponent

/-- The number has 53 bits and zeros after them, and the last one of the 53 is zero as well. -/
def HasEvenMantissa (number : Nat) : Prop :=
  ∃ mantissa exponent, 2 ^ 52 ≤ mantissa ∧ mantissa < 2 ^ 53 ∧ mantissa % 2 = 0 ∧
    number = mantissa * 2 ^ exponent

/-- The distance of the binary64 numbers around a natural number. -/
def unitAt (number : Nat) : Nat :=
  2 ^ (number.log2 - 52)

/-- The binary64 number that is nearest to a natural number. -/
def nearestDouble (number : Nat) : Nat :=
  roundDiv number (unitAt number) * unitAt number

/-- No other binary64 number is nearer, and if another one is as near then this one has an even
mantissa. -/
structure IsNearestDouble (number nearest : Nat) : Prop where
  isDouble : IsDouble nearest
  dist_le : ∀ other, IsDouble other → Nat.dist number nearest ≤ Nat.dist number other
  even : ∀ other, IsDouble other → other ≠ nearest →
    Nat.dist number other = Nat.dist number nearest → HasEvenMantissa nearest

/-- A quotient is rounded down if the rest is at most half the divisor, and up if it is at least
half. -/
theorem roundDiv_cases (num den : Nat) :
    roundDiv num den = num / den ∧ 2 * (num % den) ≤ den ∨
      roundDiv num den = num / den + 1 ∧ den ≤ 2 * (num % den) := by
  unfold roundDiv
  dsimp only
  split
  · rename_i hup
    simp only [gt_iff_lt, Bool.or_eq_true, decide_eq_true_eq, Bool.and_eq_true] at hup
    exact Or.inr ⟨rfl, by omega⟩
  · rename_i hdown
    simp only [gt_iff_lt, Bool.or_eq_true, decide_eq_true_eq, not_or] at hdown
    exact Or.inl ⟨rfl, by omega⟩

/-- Exactly in the middle the even neighbour is taken. -/
theorem roundDiv_even {num den : Nat} (h : 2 * (num % den) = den) :
    roundDiv num den % 2 = 0 := by
  unfold roundDiv
  dsimp only
  split
  · rename_i hup
    simp only [gt_iff_lt, Bool.or_eq_true, decide_eq_true_eq, Bool.and_eq_true] at hup
    omega
  · rename_i hdown
    simp only [gt_iff_lt, Bool.or_eq_true, decide_eq_true_eq, Bool.and_eq_true, not_or,
      not_and] at hdown
    omega

/-- No multiple of the divisor is nearer than the rounded one. -/
theorem dist_roundDiv_le {num den : Nat} (hden : 0 < den) (factor : Nat) :
    Nat.dist num (roundDiv num den * den) ≤ Nat.dist num (factor * den) := by
  have hdivision : num / den * den + num % den = num := Nat.div_add_mod' num den
  have hrest := Nat.mod_lt num hden
  have hside : factor * den ≤ num / den * den ∨ num / den * den + den ≤ factor * den := by
    rcases Nat.lt_or_ge (num / den) factor with hlt | hle
    · exact Or.inr (by simpa [Nat.succ_mul] using Nat.mul_le_mul_right den hlt)
    · exact Or.inl (Nat.mul_le_mul_right den hle)
  unfold Nat.dist
  rcases roundDiv_cases num den with ⟨hround, hhalf⟩ | ⟨hround, hhalf⟩
  · rw [hround]
    omega
  · rw [hround, Nat.succ_mul]
    omega

/-- Another multiple is as near only in the middle between two. -/
theorem half_of_dist_eq {num den factor : Nat} (hden : 0 < den) (hne : factor ≠ roundDiv num den)
    (h : Nat.dist num (factor * den) = Nat.dist num (roundDiv num den * den)) :
    2 * (num % den) = den := by
  have hdivision : num / den * den + num % den = num := Nat.div_add_mod' num den
  have hrest := Nat.mod_lt num hden
  have hside : factor * den + den ≤ num / den * den ∨ factor = num / den ∨
      factor = num / den + 1 ∨ num / den * den + 2 * den ≤ factor * den := by
    rcases Nat.lt_trichotomy factor (num / den) with hlt | heq | hgt
    · exact Or.inl (by simpa [Nat.succ_mul] using Nat.mul_le_mul_right den hlt)
    · exact Or.inr (Or.inl heq)
    · rcases Nat.eq_or_lt_of_le hgt with heq | hfar
      · exact Or.inr (Or.inr (Or.inl heq.symm))
      · have hmul := Nat.mul_le_mul_right den hfar
        simp only [Nat.succ_mul] at hmul
        exact Or.inr (Or.inr (Or.inr (by omega)))
  have hnext : (num / den + 1) * den = num / den * den + den := Nat.succ_mul _ _
  unfold Nat.dist at h
  rcases roundDiv_cases num den with ⟨hround, hhalf⟩ | ⟨hround, hhalf⟩ <;>
    rw [hround] at h hne <;> rcases hside with hside | rfl | rfl | hside <;> omega

variable {number : Nat}

theorem unitAt_pos (number : Nat) : 0 < unitAt number :=
  Nat.two_pow_pos _

/-- Where the unit is one, every number is its own nearest one. -/
theorem nearestDouble_of_lt (h : number < 2 ^ 53) : nearestDouble number = number := by
  have hlog : number.log2 - 52 = 0 := by
    by_cases hzero : number = 0
    · rw [hzero]
      rfl
    · have hlt := (Nat.log2_lt hzero).mpr h
      omega
  rw [nearestDouble, unitAt, hlog, roundDiv]
  simp [Nat.mod_one]

theorem nearestDouble_of_le (h : number ≤ 2 ^ 53) : nearestDouble number = number := by
  rcases Nat.lt_or_eq_of_le h with hlt | rfl
  · exact nearestDouble_of_lt hlt
  · decide +kernel

/-- A large number has at least 52 bits and at most 53 in front of its unit. -/
theorem unitAt_bounds (h : 2 ^ 52 ≤ number) :
    2 ^ 52 * unitAt number ≤ number ∧ number < 2 ^ 53 * unitAt number := by
  have hne : number ≠ 0 := by
    rintro rfl
    simp at h
  have hlog := (Nat.le_log2 hne).mpr h
  have hlower := Nat.log2_self_le hne
  have hupper := @Nat.lt_log2_self number
  rw [unitAt, ← Nat.pow_add, ← Nat.pow_add]
  rw [show 52 + (number.log2 - 52) = number.log2 by omega,
    show 53 + (number.log2 - 52) = number.log2 + 1 by omega]
  exact ⟨hlower, hupper⟩

theorem roundDiv_unitAt_bounds (h : 2 ^ 52 ≤ number) :
    2 ^ 52 ≤ roundDiv number (unitAt number) ∧ roundDiv number (unitAt number) ≤ 2 ^ 53 := by
  obtain ⟨hlower, hupper⟩ := unitAt_bounds h
  have hleast := (Nat.le_div_iff_mul_le (unitAt_pos number)).mpr hlower
  have hmost := (Nat.div_lt_iff_lt_mul (unitAt_pos number)).mpr hupper
  rcases roundDiv_cases number (unitAt number) with ⟨heq, _⟩ | ⟨heq, _⟩ <;> omega

/-- The nearest number has 53 bits and zeros after them, also where it is rounded up to the next
power of two. -/
theorem exists_mantissa (h : 2 ^ 52 ≤ number) :
    ∃ mantissa exponent, 2 ^ 52 ≤ mantissa ∧ mantissa < 2 ^ 53 ∧
      nearestDouble number = mantissa * 2 ^ exponent ∧
      (roundDiv number (unitAt number) % 2 = 0 → mantissa % 2 = 0) := by
  obtain ⟨hleast, hmost⟩ := roundDiv_unitAt_bounds h
  rcases Nat.lt_or_eq_of_le hmost with hlt | heq
  · exact ⟨_, number.log2 - 52, hleast, hlt, rfl, id⟩
  · refine ⟨2 ^ 52, number.log2 - 52 + 1, by decide, by decide, ?_, fun _ => by decide⟩
    rw [nearestDouble, heq, unitAt, Nat.pow_succ]
    omega

/-- From the power of two below a number on, all binary64 numbers are multiples of its unit. -/
theorem IsDouble.eq_mul_unitAt {other : Nat} (hother : IsDouble other)
    (h : 2 ^ 52 * unitAt number ≤ other) : ∃ factor, other = factor * unitAt number := by
  obtain ⟨mantissa, exponent, hmantissa, rfl⟩ := hother
  have hlt : 2 ^ (52 + (number.log2 - 52)) < 2 ^ (53 + exponent) := by
    calc 2 ^ (52 + (number.log2 - 52)) = 2 ^ 52 * unitAt number := Nat.pow_add _ _ _
      _ ≤ mantissa * 2 ^ exponent := h
      _ < 2 ^ 53 * 2 ^ exponent := Nat.mul_lt_mul_of_pos_right hmantissa (Nat.two_pow_pos _)
      _ = 2 ^ (53 + exponent) := (Nat.pow_add _ _ _).symm
  have hle := (Nat.pow_lt_pow_iff_right (by decide)).mp hlt
  refine ⟨mantissa * 2 ^ (exponent - (number.log2 - 52)), ?_⟩
  rw [unitAt, Nat.mul_assoc, ← Nat.pow_add]
  congr 2
  omega

/-- The numbers below that power of two are further away than the power itself. -/
theorem dist_nearestDouble_lt (h : 2 ^ 52 ≤ number) {other : Nat}
    (hother : other < 2 ^ 52 * unitAt number) :
    Nat.dist number (nearestDouble number) < Nat.dist number other := by
  have hpower := @dist_roundDiv_le number _ (unitAt_pos number) (2 ^ 52)
  have hlower := (unitAt_bounds h).1
  rw [nearestDouble]
  unfold Nat.dist at hpower ⊢
  omega

/-- Rounding to a multiple of the unit gives the nearest binary64 number, ties to even. -/
theorem isNearestDouble (number : Nat) : IsNearestDouble number (nearestDouble number) := by
  rcases Nat.lt_or_ge number (2 ^ 53) with hsmall | hlarge
  · rw [nearestDouble_of_lt hsmall]
    refine ⟨⟨number, 0, hsmall, by simp⟩, fun other _ => by simp [Nat.dist_self], ?_⟩
    intro other _ hne heq
    exact absurd (Nat.eq_of_dist_eq_zero (heq.trans (Nat.dist_self number))).symm hne
  · have h : 2 ^ 52 ≤ number := Nat.le_trans (by decide) hlarge
    obtain ⟨mantissa, exponent, hleast, hmost, heq, heven⟩ := exists_mantissa h
    refine ⟨⟨mantissa, exponent, hmost, heq⟩, fun other hother => ?_,
      fun other hother hne hdist => ?_⟩
    · rcases Nat.lt_or_ge other (2 ^ 52 * unitAt number) with hbelow | habove
      · exact Nat.le_of_lt (dist_nearestDouble_lt h hbelow)
      · obtain ⟨factor, rfl⟩ := hother.eq_mul_unitAt habove
        exact dist_roundDiv_le (unitAt_pos number) factor
    · rcases Nat.lt_or_ge other (2 ^ 52 * unitAt number) with hbelow | habove
      · exact absurd hdist (Nat.ne_of_gt (dist_nearestDouble_lt h hbelow))
      · obtain ⟨factor, rfl⟩ := hother.eq_mul_unitAt habove
        have hfactor : factor ≠ roundDiv number (unitAt number) := by
          rintro rfl
          exact hne rfl
        have hhalf := half_of_dist_eq (unitAt_pos number) hfactor hdist
        exact ⟨mantissa, exponent, hleast, hmost, heven (roundDiv_even hhalf), heq⟩

end SchemaWire.Decimal
