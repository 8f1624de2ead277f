import Mathlib.Algebra.Ring.Nat
import RulePruner.Cutting

/-!
# The size of what is cut

The characters of a text remain or stand in a block, and none is lost or counted twice.
-/

namespace RulePruner

namespace Cutting

/-- The number of characters in all blocks together. -/
def blockChars (cutting : Cutting) : Nat := (cutting.pieces.map fun piece => piece.block.length).sum

@[simp] theorem blockChars_keep (c : Char) (cutting : Cutting) :
    (keep c cutting).blockChars = cutting.blockChars := by
  obtain ⟨_ | ⟨piece, later⟩, last⟩ := cutting <;> simp [keep, blockChars]

@[simp] theorem blockChars_cut (block : Text) (cutting : Cutting) :
    (cut block cutting).blockChars = block.length + cutting.blockChars := by
  simp [cut, blockChars]

/-- The characters of a text remain or stand in a block. -/
theorem length_remaining_add_blockChars (cutting : Cutting) :
    cutting.remaining.length + cutting.blockChars = cutting.text.length := by
  obtain ⟨pieces, rest⟩ := cutting
  induction pieces with
  | nil => rfl
  | cons piece pieces ih =>
    simp only [remaining, text, blockChars, List.flatMap_cons, List.map_cons, List.sum_cons,
      List.length_append] at ih ⊢
    omega

end Cutting

end RulePruner
