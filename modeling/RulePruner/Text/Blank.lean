import RulePruner.Text.Basic

/-!
White space. The blanks are the characters with the property White_Space, the same ones around a
class name and between a class name and its block.
-/

namespace RulePruner.Text

/-- The code points with the property White_Space, as closed ranges in ascending order. -/
def blankRanges : List (Nat × Nat) :=
  [(0x09, 0x0D), (0x20, 0x20), (0x85, 0x85), (0xA0, 0xA0), (0x1680, 0x1680),
   (0x2000, 0x200A), (0x2028, 0x2029), (0x202F, 0x202F), (0x205F, 0x205F), (0x3000, 0x3000)]

/-- Whether a character is white space. -/
def isBlank (c : Char) : Bool :=
  blankRanges.any fun range => range.1 ≤ c.toNat && c.toNat ≤ range.2

/-- The text without the blanks at its two ends. -/
def trim (t : Text) : Text :=
  ((t.dropWhile isBlank).reverse.dropWhile isBlank).reverse

@[simp] theorem trim_nil : trim [] = [] := rfl

/-- A brace is no blank, so blanks never reach into a block. -/
theorem isBlank_openBrace : isBlank '{' = false := by decide

theorem isBlank_closeBrace : isBlank '}' = false := by decide

theorem isBlank_newline : isBlank '\n' = true := by decide

end RulePruner.Text
