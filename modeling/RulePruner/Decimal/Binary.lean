import RulePruner.Decimal.Power

/-!
The value of a double: what its 64 bits stand for, as a whole number times a power of two. The
decimal forms of a double are computed from this value in exact arithmetic.
-/

namespace RulePruner.Decimal

/-- What a double stands for. -/
inductive Double where
  | notANumber
  | infinite (negative : Bool)
  /-- The number `mantissa * 2 ^ exponent`, with its sign, which zero has as well. -/
  | finite (negative : Bool) (mantissa : Nat) (exponent : Int)
  deriving DecidableEq, Repr

namespace Double

/-- The exponent of the smallest doubles. -/
def leastExponent : Int := -1074

/-- The smallest mantissa of a double whose exponent is not the least one. -/
def hiddenBit : Nat := twoPow 52

/-- Reads the bits of a double: a sign, eleven bits of exponent, 52 bits of mantissa. -/
def ofBits (bits : Nat) : Double :=
  let negative := bits / twoPow 63 % 2 == 1
  let biased : Nat := bits / twoPow 52 % twoPow 11
  let fraction := bits % twoPow 52
  if biased = twoPow 11 - 1 then
    if fraction = 0 then infinite negative else notANumber
  else if biased = 0 then finite negative fraction leastExponent
  else finite negative (hiddenBit + fraction) (leastExponent + ((biased - 1 : Nat) : Int))

/-- Reads a double. -/
def ofFloat (x : Float) : Double := ofBits x.toBits.toNat

end Double

end RulePruner.Decimal
