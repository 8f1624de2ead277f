import RulePruner.Text.Basic

/-!
Blocks: a text from an opening brace to the brace that closes it. The search counts open braces
and, when a greatest depth is given, gives up where the braces nest deeper.
-/

namespace RulePruner.Block

/-- The number of characters up to and including the brace that closes a block, read from inside
the block with `depth` braces open and `passed` characters behind. -/
def closing? (deepest : Option Nat) (depth passed : Nat) : Text → Option Nat
  | [] => none
  | c :: rest =>
    if c = '{' then
      if deepest.any (· ≤ depth) then none
      else closing? deepest (depth + 1) (passed + 1) rest
    else if c = '}' then
      if depth ≤ 1 then some (passed + 1)
      else closing? deepest (depth - 1) (passed + 1) rest
    else closing? deepest depth (passed + 1) rest

/-- The number of characters of the block that a text starts with. -/
def length? (deepest : Option Nat) : Text → Option Nat
  | [] => none
  | c :: rest => if c = '{' then closing? deepest 1 1 rest else none

theorem closing?_bounds {deepest : Option Nat} {depth passed n : Nat} {t : Text}
    (found : closing? deepest depth passed t = some n) :
    passed < n ∧ n ≤ passed + t.length := by
  fun_induction closing? deepest depth passed t <;> grind

/-- A block holds at least its two braces and lies within the text. -/
theorem length?_bounds {deepest : Option Nat} {n : Nat} {t : Text}
    (found : length? deepest t = some n) : 2 ≤ n ∧ n ≤ t.length := by
  cases t with
  | nil => simp [length?] at found
  | cons c rest =>
    by_cases opens : c = '{'
    · have bounds := closing?_bounds (by simpa [length?, opens] using found)
      simp only [List.length_cons]
      omega
    · simp [length?, opens] at found

end RulePruner.Block
