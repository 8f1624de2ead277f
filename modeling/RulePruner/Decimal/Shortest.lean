import RulePruner.Decimal.Binary
import RulePruner.Decimal.Fixed

/-!
The shortest decimal that reads back as a given double. The decimals that read back form an
interval around the value. The coarsest decimal grid with a point in the interval gives the fewest
digits; of two such points the nearer one is taken, and of two equally near the even one.
-/

namespace RulePruner

/-- The number `digits * 10 ^ exponent`. -/
structure Decimal where
  digits : Nat
  exponent : Int
  deriving DecidableEq, Repr

namespace Decimal

/-- The reals that are read as one double, measured in quarters of the unit of its mantissa. -/
structure ReadingInterval where
  low : Nat
  value : Nat
  high : Nat
  /-- Whether the two ends are read as the double too. -/
  closed : Bool
  /-- The exponent of the double. -/
  exponent : Int
  deriving DecidableEq, Repr

namespace ReadingInterval

/-- The interval of `mantissa * 2 ^ exponent`. Just below the smallest mantissa the doubles are
twice as dense, unless their exponent is the least one. -/
def of (mantissa : Nat) (exponent : Int) : ReadingInterval where
  low :=
    if mantissa = Double.hiddenBit ∧ Double.leastExponent < exponent then 4 * mantissa - 1
    else 4 * mantissa - 2
  value := 4 * mantissa
  high := 4 * mantissa + 2
  closed := mantissa % 2 == 0
  exponent := exponent

/-- Two factors that compare the interval with the multiples of `10 ^ power`: a quarter is as
`quarter` to the `point` of the grid. -/
def scales (interval : ReadingInterval) (power : Int) : Nat × Nat :=
  let quarterExponent := interval.exponent - 2
  (twoPow quarterExponent.toNat * tenPow (-power).toNat,
   twoPow (-quarterExponent).toNat * tenPow power.toNat)

/-- Whether `n * 10 ^ power` is read as the double. -/
def contains (interval : ReadingInterval) (power : Int) (n : Nat) : Bool :=
  let (quarter, point) := interval.scales power
  if interval.closed then
    interval.low * quarter ≤ n * point && n * point ≤ interval.high * quarter
  else
    interval.low * quarter < n * point && n * point < interval.high * quarter

/-- The point of the grid of `10 ^ power` that is nearest to the value, among those that are read
as the double. -/
def nearest? (interval : ReadingInterval) (power : Int) : Option Nat :=
  let (quarter, point) := interval.scales power
  let below := interval.value * quarter / point
  let above := below + 1
  match interval.contains power below, interval.contains power above with
  | true, true =>
    let toBelow := interval.value * quarter - below * point
    let toAbove := above * point - interval.value * quarter
    if toBelow < toAbove || (toBelow == toAbove && below % 2 == 0) then some below else some above
  | true, false => some below
  | false, true => some above
  | false, false => none

/-- A power of ten above the whole interval. -/
def topPower (interval : ReadingInterval) : Nat :=
  let (quarter, point) := interval.scales 0
  (numeral (interval.high * quarter / point)).length

end ReadingInterval

/-- The number of powers of ten below one that are tried: the grid of the last one is finer than
the doubles of the least exponent. -/
def finestPower : Nat := 325

/-- The shortest decimal that is read as `mantissa * 2 ^ exponent`, for a positive mantissa. -/
def shortest (mantissa : Nat) (exponent : Int) : Decimal :=
  let interval := ReadingInterval.of mantissa exponent
  let top := interval.topPower
  let found := (List.range (top + finestPower)).findSome? fun (step : Nat) =>
    let power := (top : Int) - step
    (interval.nearest? power).map fun n => Decimal.mk n power
  found.getD ⟨0, 0⟩

/-- What the search returns is read as the double. -/
theorem contains_of_nearest? {interval : ReadingInterval} {power : Int} {n : Nat}
    (found : interval.nearest? power = some n) : interval.contains power n := by
  simp only [ReadingInterval.nearest?] at found
  split at found
  · split at found <;> simp_all
  all_goals simp_all

end Decimal

end RulePruner
