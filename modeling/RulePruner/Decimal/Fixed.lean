import RulePruner.Decimal.Power
import RulePruner.Text.Basic

/-!
Decimals with a fixed number of places: the exact value rounded to the nearest such decimal, a
value half way between two of them to the one whose last digit is even.
-/

namespace RulePruner.Decimal

/-- The decimal numeral of a natural number. -/
def numeral (n : Nat) : Text := Nat.toDigits 10 n

/-- A quotient rounded to the nearest whole number, a half to the even neighbour. -/
def roundQuotient (numerator denominator : Nat) : Nat :=
  let quotient := numerator / denominator
  let doubled := 2 * (numerator % denominator)
  if denominator < doubled || (denominator == doubled && quotient % 2 == 1) then quotient + 1
  else quotient

/-- The rounded quotient is within half a unit of the exact one. -/
theorem roundQuotient_near {numerator denominator : Nat} (positive : 0 < denominator) :
    2 * numerator ≤ 2 * (roundQuotient numerator denominator * denominator) + denominator ∧
      2 * (roundQuotient numerator denominator * denominator) ≤
        2 * numerator + denominator := by
  have parts := Nat.div_add_mod numerator denominator
  have small := Nat.mod_lt numerator positive
  have next : (numerator / denominator + 1) * denominator =
      denominator * (numerator / denominator) + denominator := by
    rw [Nat.add_mul, Nat.mul_comm, Nat.one_mul]
  have same := Nat.mul_comm (numerator / denominator) denominator
  simp only [roundQuotient]
  split <;> rename_i side <;>
    simp only [Bool.or_eq_true, decide_eq_true_eq, Bool.and_eq_true, beq_iff_eq, not_or,
      not_and] at side <;>
    omega

/-- Half way between two whole numbers the even one is taken. -/
theorem roundQuotient_half {numerator denominator : Nat}
    (half : denominator = 2 * (numerator % denominator)) :
    roundQuotient numerator denominator % 2 = 0 := by
  simp only [roundQuotient, ← half, Nat.lt_irrefl, decide_false, beq_self_eq_true,
    Bool.true_and, Bool.false_or, beq_iff_eq]
  split <;> omega

/-- Writes a whole number of units of the last of `places` places, with a point in front of
those places. -/
def pointBefore (places : Nat) (units : Nat) : Text :=
  let whole := numeral (units / tenPow places)
  let fraction := numeral (units % tenPow places)
  whole ++ '.' :: List.replicate (places - fraction.length) '0' ++ fraction

/-- The number `mantissa * 2 ^ exponent` with the given number of places. -/
def fixed (places mantissa : Nat) (exponent : Int) : Text :=
  pointBefore places
    (roundQuotient (mantissa * tenPow places * twoPow exponent.toNat) (twoPow (-exponent).toNat))

end RulePruner.Decimal
