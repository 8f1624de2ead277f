import RulePruner.ClassList
import RulePruner.Event
import RulePruner.Outcome
import RulePruner.Removal
import RulePruner.Text.Newline

/-!
What each operation tells a log.
-/

namespace RulePruner.Log

/-- Reading line ends tells of a text only if it has carriage returns. -/
def normalize (t : Text) : List Event :=
  if '\r' ∈ t then [.normalized (Text.byteSize t) (Text.byteSize (Text.normalize t))] else []

/-- Capping newline runs tells the sizes before and after. -/
def collapse (t : Text) : List Event :=
  [.collapsed (Text.byteSize t) (Text.byteSize (Text.collapse t))]

/-- Parsing a class list tells every name. -/
def parse (t : Text) : List Event := (ClassList.parse t).map .listed

/-- Looking for a class tells the pattern of its rules if the strategy uses one. -/
def search : Strategy → Text → List Event
  | .balanced, _ => []
  | .fast, name => [.rulePattern name (Pattern.rule name).text]

/-- Removing a class tells what was cut out, if anything was. -/
def removed (name : Text) : Option Removal → List Event
  | none => []
  | some removal => [.cutOut removal.count name removal.bytes]

/-- A summary tells how many classes it is about. -/
def summary (outcome : Outcome) : List Event := [.summarizing outcome.removed.length]

end RulePruner.Log
