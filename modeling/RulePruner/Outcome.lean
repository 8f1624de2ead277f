import RulePruner.Strategy
import RulePruner.Text.Basic

/-!
The outcome of a run: which classes lost rules and how the size of the stylesheet changed.
-/

namespace RulePruner

/-- What a finished run reports. Sizes are counted in characters. -/
structure Outcome where
  /-- The classes that had at least one rule, in the order of the class list. -/
  removed : List Text
  charsBefore : Nat
  charsAfter : Nat
  /-- The net loss, which counts the newlines that were capped too. -/
  charsRemoved : Nat
  /-- The net loss in percent of the size before; an empty stylesheet has none. -/
  reduction : Option Float
  strategy : Strategy
  /-- Whether the stylesheet was written. -/
  written : Bool

namespace Outcome

/-- One count in percent of another, in double precision: the counts are converted, divided, and
the quotient is multiplied by a hundred. -/
def percent (part whole : Nat) : Float :=
  part.toUInt64.toFloat / whole.toUInt64.toFloat * 100.0

/-- The outcome of a run with the given sizes; a stylesheet that grew has lost nothing. -/
def of (removed : List Text) (charsBefore charsAfter : Nat) (strategy : Strategy)
    (written : Bool) : Outcome where
  removed := removed
  charsBefore := charsBefore
  charsAfter := charsAfter
  charsRemoved := charsBefore - charsAfter
  reduction :=
    if charsBefore = 0 then none else some (percent (charsBefore - charsAfter) charsBefore)
  strategy := strategy
  written := written

/-- Only an empty stylesheet has no reduction. -/
theorem reduction_of_eq_none_iff (removed : List Text) (charsBefore charsAfter : Nat)
    (strategy : Strategy) (written : Bool) :
    (of removed charsBefore charsAfter strategy written).reduction = none ↔ charsBefore = 0 := by
  simp [of]

end Outcome

end RulePruner
