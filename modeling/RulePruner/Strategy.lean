/-!
Matching strategies: how far the braces inside a block may nest for the block to be found.
-/

namespace RulePruner

/-- How the block of a class is located. -/
inductive Strategy where
  /-- Braces are followed to any depth. -/
  | balanced
  /-- A block may hold inner blocks, but those hold none. -/
  | fast
  deriving DecidableEq, Repr

namespace Strategy

/-- The name under which a strategy is chosen and reported. -/
def name : Strategy → String
  | balanced => "balanced"
  | fast => "fast"

/-- The name as a title. -/
def title : Strategy → String
  | balanced => "Balanced"
  | fast => "Fast"

/-- The greatest brace depth a block may reach, if there is one. -/
def deepest : Strategy → Option Nat
  | balanced => none
  | fast => some 2

/-- The strategies in the order in which they are offered. -/
def all : List Strategy := [balanced, fast]

/-- The strategy of a given name. -/
def ofName? (text : String) : Option Strategy :=
  all.find? fun strategy => strategy.name = text

theorem ofName?_name (strategy : Strategy) : ofName? strategy.name = some strategy := by
  cases strategy <;> decide

end Strategy

end RulePruner
