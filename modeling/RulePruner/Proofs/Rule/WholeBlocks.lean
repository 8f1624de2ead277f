import RulePruner.Proofs.Cutting.Slices
import RulePruner.Proofs.Removal
import RulePruner.Proofs.Rule.Agreement

/-!
# A removal deletes whole rules and nothing else

A stylesheet falls into kept stretches and the rules of a class, which stand at the spans that the
search returns. A removal returns exactly the kept stretches, in order. The main statement is
`Rule.exists_cutting_of_remove`. The class name can be any text.
-/

namespace RulePruner

namespace Cutting

theorem length_spansFrom (offset : Nat) (pieces : List Piece) :
    (spansFrom offset pieces).length = pieces.length := by
  induction pieces generalizing offset with
  | nil => rfl
  | cons piece pieces ih => rw [spansFrom, List.length_cons, ih, List.length_cons]

/-- A cutting has a span for each of its blocks. -/
theorem length_spans (cutting : Cutting) : cutting.spans.length = cutting.count :=
  length_spansFrom 0 cutting.pieces

end Cutting

theorem Removal.ofCutting?_eq_none_iff {cutting : Cutting} :
    ofCutting? cutting = none ↔ cutting.spans = [] := by
  rw [← List.length_eq_zero_iff, Cutting.length_spans, Cutting.count, List.length_eq_zero_iff,
    ofCutting?]
  simp

theorem Removal.ofCutting?_eq_some_iff {cutting : Cutting} {removal : Removal} :
    ofCutting? cutting = some removal ↔ cutting.pieces ≠ [] ∧
      removal = ⟨cutting.remaining, cutting.count, cutting.blockBytes⟩ := by
  rw [ofCutting?]
  split
  · rename_i empty
    simp [List.isEmpty_iff.mp empty]
  · rename_i found
    simp [List.isEmpty_iff.not.mp found, eq_comm]

namespace Rule

open Text Block

variable {strategy : Strategy} {name css : Text}

/-- What is cut out are rules of the class. -/
theorem isRule_of_mem_pieces {piece : Piece} (member : piece ∈ (cut strategy name css).pieces) :
    IsRule strategy name piece.block := by
  obtain ⟨earlier, later, split⟩ := List.append_of_mem member
  exact (cuts_isRule ⟨earlier, piece.kept, later, split, rfl, rfl⟩).2

/-- A removal that returns has split the stylesheet into kept stretches and rules of the class,
which stand at the spans of the class, in order. There is nothing to remove exactly if there is no
span. Otherwise just the kept stretches remain, and the number of rules is that of the spans. -/
theorem exists_cutting_of_remove {removal : Option Removal}
    (removed : remove strategy name css = .ok removal) :
    ∃ (found : List Span) (cutting : Cutting),
      spans strategy name css = .ok found ∧ (removal = none ↔ found = []) ∧
      cutting.text = css ∧ cutting.spans = found ∧
      (found.map fun span => slice span.start span.stop css) =
        cutting.pieces.map (fun piece => .ok piece.block) ∧
      (∀ piece ∈ cutting.pieces, IsRule strategy name piece.block ∧ ['}'] <:+ piece.block) ∧
      ∀ left ∈ removal, left.css = cutting.remaining ∧ left.count = found.length ∧
        1 ≤ left.count ∧ left.css.length + left.count * (name.length + 3) ≤ css.length := by
  obtain ⟨supported, rfl⟩ := remove_eq_ok_iff.mp removed
  have whole : (cut strategy name css).text = css := text_cut strategy name css
  refine ⟨_, cut strategy name css, spans_of_supports supported css,
    Removal.ofCutting?_eq_none_iff, whole, rfl, ?_, ?_, ?_⟩
  · have blocks := (cut strategy name css).map_slice_spans
    rwa [whole] at blocks
  · intro piece member
    have isRule := isRule_of_mem_pieces member
    exact ⟨isRule, isRule.ends⟩
  · intro left some_
    obtain ⟨found, rfl⟩ := Removal.ofCutting?_eq_some_iff.mp some_
    have size := (cut strategy name css).length_remaining_add_blockChars
    have least : (cut strategy name css).count * (name.length + 3) ≤ _ :=
      count_mul_le_blockChars name css
    rw [whole] at size
    refine ⟨rfl, (Cutting.length_spans _).symm, List.length_pos_iff.mpr found, ?_⟩
    simp only
    omega

/-- Two rules side by side are taken out, and what they stand between is joined. -/
theorem exists_cutting_of_remove_of_adjacent_rules :
    let css := "ü.é {{→}}.é{}.é\x7bß".toList
    remove .fast "é".toList css = .ok (some ⟨"ü.é\x7bß".toList, 2, 16⟩) ∧
      ∃ (found : List Span) (cutting : Cutting),
        spans .fast "é".toList css = .ok found ∧ cutting.text = css ∧
        found = [⟨2, 13⟩, ⟨13, 18⟩] ∧
        (found.map fun span => slice span.start span.stop css) =
          cutting.pieces.map (fun piece => .ok piece.block) ∧
        cutting.remaining = "ü.é\x7bß".toList ∧
        (∀ piece ∈ cutting.pieces, IsRule .fast "é".toList piece.block) ∧
        "ü.é\x7bß".toList.length + 2 * ("é".toList.length + 3) ≤ css.length := by
  intro css
  have removed : remove .fast "é".toList css = .ok (some ⟨"ü.é\x7bß".toList, 2, 16⟩) :=
    congrArg Except.ok (by decide +kernel)
  have searched : spans .fast "é".toList css = .ok [⟨2, 13⟩, ⟨13, 18⟩] :=
    congrArg Except.ok (by decide +kernel)
  obtain ⟨found, cutting, searched', -, whole, -, slices, rules, left⟩ :=
    exists_cutting_of_remove removed
  obtain rfl := Except.ok.inj (searched.symm.trans searched')
  obtain ⟨remains, -, -, shorter⟩ := left _ rfl
  exact ⟨removed, _, cutting, searched, whole, rfl, slices, remains.symm,
    fun piece member => (rules piece member).1, shorter⟩

end Rule

end RulePruner
