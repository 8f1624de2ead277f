import RulePruner.Decimal.Shortest

/-!
How a decimal is written: with its point in place while the exponent of its leading digit lies in
a given range, and otherwise with an exponent.
-/

namespace RulePruner.Decimal

/-- The range of exponents of the leading digit for which the point stands in its place. -/
structure Layout where
  least : Int
  greatest : Int

namespace Layout

/-- The digits with the point in its place. A whole number is followed by a zero place. -/
def positional (shown : Text) (exponent : Int) : Text :=
  let whole : Int := shown.length + exponent
  if 0 ≤ exponent then shown ++ List.replicate exponent.toNat '0' ++ ['.', '0']
  else if 0 < whole then shown.take whole.toNat ++ '.' :: shown.drop whole.toNat
  else '0' :: '.' :: List.replicate (-whole).toNat '0' ++ shown

/-- The digits with the point after the first of them, followed by the exponent of that digit. -/
def scientific (shown : Text) (magnitude : Int) : Text :=
  let fraction := shown.drop 1
  let sign := if magnitude < 0 then '-' else '+'
  shown.take 1 ++ (if fraction.isEmpty then [] else '.' :: fraction) ++
    'e' :: sign :: numeral magnitude.natAbs

/-- A decimal as it is written. -/
def write (layout : Layout) (decimal : Decimal) : Text :=
  let shown := numeral decimal.digits
  let magnitude : Int := shown.length - 1 + decimal.exponent
  if layout.least ≤ magnitude ∧ magnitude ≤ layout.greatest then
    positional shown decimal.exponent
  else scientific shown magnitude

end Layout

end RulePruner.Decimal
