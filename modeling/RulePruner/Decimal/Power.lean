/-!
The powers that decimal and binary forms are measured in.
-/

namespace RulePruner.Decimal

/-- A power of two. -/
def twoPow (n : Nat) : Nat := Nat.pow 2 n

/-- A power of ten. -/
def tenPow (n : Nat) : Nat := Nat.pow 10 n

end RulePruner.Decimal
