import RulePruner.Text.Blank

/-!
Class lists: one class name per line. Blanks around a name are dropped, and so are blank lines;
order and repetition stay.
-/

namespace RulePruner.ClassList

/-- The names of a class list, in order. -/
def parse (t : Text) : List Text :=
  ((t.splitOn '\n').map Text.trim).filter fun name => !name.isEmpty

end RulePruner.ClassList
