import RulePruner.Strategy
import RulePruner.Text.Basic

/-!
The options of a run: which class list, which stylesheet, which strategy, and whether the
stylesheet is to be written.
-/

namespace RulePruner

/-- What a run is asked to do. -/
structure Options where
  /-- The path of the class list. -/
  classList : Text := "safe_to_remove_classes.txt".toList
  /-- The path of the stylesheet. -/
  stylesheet : Text := "style.css".toList
  strategy : Strategy := .balanced
  /-- Whether the stylesheet is to be left as it is. -/
  dryRun : Bool := false
  deriving DecidableEq, Repr

end RulePruner
