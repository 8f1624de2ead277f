import RulePruner.Proofs.Cutting.Size
import RulePruner.Proofs.Rule.Without
import RulePruner.Removal

/-!
# Removing one class

A removal finds a class that occurs and that the strategy supports, and what it leaves of the
stylesheet is told by `Rule.without`.
-/

namespace RulePruner

/-- What is left of a stylesheet by a removal, or without one. -/
def Removal.left (css : Text) (removal : Option Removal) : Text :=
  (removal.map Removal.css).getD css

theorem Removal.left_ofCutting? (cutting : Cutting) :
    left cutting.text (ofCutting? cutting) = cutting.remaining := by
  unfold ofCutting?
  split
  · rename_i empty
    exact (Cutting.remaining_of_pieces_nil (List.isEmpty_iff.mp empty)).symm
  · rfl

namespace Rule

variable {strategy : Strategy} {name css : Text}

theorem pieces_cut_eq_nil_iff :
    (cut strategy name css).pieces = [] ↔ ¬ Occurs strategy name css := by
  rw [cut, Cutting.pieces_of_eq_nil_iff (measures_length? strategy name)]
  constructor
  · rintro missing ⟨before, rule, after, split, isRule⟩
    have here := missing before (rule ++ after) (by rw [split, List.append_assoc])
    rw [isRule.length?_append] at here
    simp at here
  · intro absent front u split
    rw [length?_eq_none_iff]
    rintro rule rest rfl isRule
    exact absent ⟨front, rule, rest, by rw [split, List.append_assoc], isRule⟩

theorem without_of_not_occurs (absent : ¬ Occurs strategy name css) :
    without strategy [name] css = css := by
  rw [← remaining_cut, Cutting.remaining_of_pieces_nil (pieces_cut_eq_nil_iff.mpr absent), text_cut]

theorem remove_of_supports (supported : supports strategy name = true) (css : Text) :
    remove strategy name css = .ok (Removal.ofCutting? (cut strategy name css)) := by
  simp [remove, find, supported, Except.map]

theorem remove_eq_ok_iff {removal : Option Removal} :
    remove strategy name css = .ok removal ↔
      supports strategy name = true ∧ Removal.ofCutting? (cut strategy name css) = removal := by
  cases supported : supports strategy name <;> simp [remove, find, supported, Except.map]

theorem spans_eq_ok_iff {found : List Span} :
    spans strategy name css = .ok found ↔
      supports strategy name = true ∧ (cut strategy name css).spans = found := by
  cases supported : supports strategy name <;> simp [spans, find, supported, Except.map]

theorem isSome_ofCutting?_iff :
    (Removal.ofCutting? (cut strategy name css)).isSome ↔ Occurs strategy name css := by
  rw [← not_iff_not, ← pieces_cut_eq_nil_iff, Removal.ofCutting?]
  cases (cut strategy name css).pieces <;> simp

theorem left_cut (strategy : Strategy) (name css : Text) :
    Removal.left css (Removal.ofCutting? (cut strategy name css)) =
      without strategy [name] css := by
  have left := Removal.left_ofCutting? (cut strategy name css)
  rwa [text_cut, remaining_cut] at left

/-- The rules that are cut out have at least the characters of a head and two braces each. -/
theorem count_mul_le_blockChars (name css : Text) :
    (cut strategy name css).count * (name.length + 3) ≤ (cut strategy name css).blockChars := by
  refine Cutting.of_split_induction (measures_length? strategy name)
    (motive := fun _ cutting => cutting.count * (name.length + 3) ≤ cutting.blockChars)
    (by simp [Cutting.count]) ?_ ?_ css
  · intro c t _ ih
    rwa [Cutting.count_keep, Cutting.blockChars_keep]
  · intro block rest found ih
    have size := (length?_bounds found).1
    rw [Cutting.count_cut, Cutting.blockChars_cut, Nat.succ_mul]
    omega

theorem remove_of_oversized (oversized : supports strategy name = false) :
    remove strategy name css = .error (.oversized name) := by
  simp [remove, find, oversized, Except.map]

theorem remove_of_not_occurs (supported : supports strategy name = true)
    (absent : ¬ Occurs strategy name css) : remove strategy name css = .ok none := by
  have empty := pieces_cut_eq_nil_iff.mpr absent
  rw [remove_of_supports supported]
  simp [Removal.ofCutting?, empty]

theorem remove_of_occurs (supported : supports strategy name = true)
    (occurs : Occurs strategy name css) :
    ∃ removal, remove strategy name css = .ok (some removal) ∧
      removal.css = without strategy [name] css ∧
      removal.count = (cut strategy name css).count := by
  have found : (cut strategy name css).pieces ≠ [] := fun empty =>
    pieces_cut_eq_nil_iff.mp empty occurs
  refine ⟨⟨(cut strategy name css).remaining, (cut strategy name css).count,
    (cut strategy name css).blockBytes⟩, ?_, remaining_cut name css, rfl⟩
  rw [remove_of_supports supported]
  simp [Removal.ofCutting?, found]

end Rule

end RulePruner
