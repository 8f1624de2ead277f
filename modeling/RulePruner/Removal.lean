import RulePruner.Failure
import RulePruner.Rule.Basic

/-!
Removing a class from a stylesheet: every rule of the class is cut out. The fast strategy refuses
a class whose pattern would be too large, whether or not the class occurs.
-/

namespace RulePruner

/-- A stylesheet after at least one rule of a class is cut out. -/
structure Removal where
  /-- What remains of the stylesheet. -/
  css : Text
  /-- The number of rules cut out. -/
  count : Nat
  /-- The number of bytes cut out. -/
  bytes : Nat
  deriving DecidableEq, Repr

/-- What a cutting leaves, if it holds a block at all. -/
def Removal.ofCutting? (cutting : Cutting) : Option Removal :=
  if cutting.pieces.isEmpty then none
  else some ⟨cutting.remaining, cutting.count, cutting.blockBytes⟩

namespace Rule

/-- Whether a strategy can look for a class. -/
def supports : Strategy → Text → Bool
  | .balanced, _ => true
  | .fast, name => Pattern.compiles name

/-- The stylesheet with the rules of a class cut out. -/
def find (strategy : Strategy) (name css : Text) : Except Failure Cutting :=
  if supports strategy name then .ok (cut strategy name css) else .error (.oversized name)

/-- The byte range of each rule of a class. -/
def spans (strategy : Strategy) (name css : Text) : Except Failure (List Span) :=
  (find strategy name css).map Cutting.spans

/-- The stylesheet without the rules of a class, or nothing if there is no such rule. -/
def remove (strategy : Strategy) (name css : Text) : Except Failure (Option Removal) :=
  (find strategy name css).map Removal.ofCutting?

end Rule

end RulePruner
