/-!
Texts. Class lists, stylesheets, paths and arguments are sequences of Unicode scalar values, and
every function on them works character by character.
-/

namespace RulePruner

/-- A text is the sequence of its characters. -/
abbrev Text := List Char

end RulePruner
