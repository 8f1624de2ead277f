import RulePruner.Block
import RulePruner.Cutting
import RulePruner.Strategy
import RulePruner.Text.Blank

/-!
Rules of a class: a dot, the class name, blanks, and a block. A rule is looked for at every place
of a stylesheet from left to right, the text before the dot plays no part, and the search goes on
after the rule it finds.
-/

namespace RulePruner.Rule

/-- The number of characters of the rule of class `name` that a text starts with. -/
def length? (strategy : Strategy) (name : Text) : Text → Option Nat
  | [] => none
  | c :: rest =>
    if c = '.' && name.isPrefixOf rest then
      let afterName := rest.drop name.length
      let blanks := afterName.takeWhile Text.isBlank
      (Block.length? strategy.deepest (afterName.dropWhile Text.isBlank)).map fun n =>
        1 + name.length + blanks.length + n
    else none

/-- The stylesheet `css` with the rules of class `name` cut out. -/
def cut (strategy : Strategy) (name css : Text) : Cutting :=
  Cutting.of (length? strategy name) css

/-- A rule has a character for the dot, those of the name, and those of its block. -/
theorem length?_bounds {strategy : Strategy} {name t : Text} {n : Nat}
    (found : length? strategy name t = some n) : name.length + 3 ≤ n ∧ n ≤ t.length := by
  cases t with
  | nil => simp [length?] at found
  | cons c rest =>
    simp only [length?] at found
    split at found
    · rename_i starts
      obtain ⟨m, closed, rfl⟩ := Option.map_eq_some_iff.mp found
      have bounds := Block.length?_bounds closed
      have within : name.length ≤ rest.length := by
        simp only [Bool.and_eq_true, List.isPrefixOf_iff_prefix] at starts
        exact starts.2.length_le
      have parts := congrArg List.length
        (List.takeWhile_append_dropWhile (p := Text.isBlank) (l := rest.drop name.length))
      simp only [List.length_append, List.length_drop, List.length_cons] at *
      omega
    · simp at found

theorem measures_length? (strategy : Strategy) (name : Text) :
    Cutting.Measures (length? strategy name) := by
  intro t n found
  have bounds := length?_bounds found
  omega

/-- Cutting out the rules of a class loses nothing of the stylesheet. -/
theorem text_cut (strategy : Strategy) (name css : Text) : (cut strategy name css).text = css :=
  Cutting.text_of (measures_length? strategy name) css

end RulePruner.Rule
