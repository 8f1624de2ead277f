import RulePruner.Proofs.Cutting.Seams
import RulePruner.Proofs.Rule.Containment

/-!
# What a removal can leave behind

A balanced removal takes out every rule of the class, and cutting rules out of a text neither closes
nor opens a block around them. So a rule that stands in what remains has a seam in its head: a cut
has put the head together. The main statement is `Rule.exists_seam_of_remove`.
-/

namespace RulePruner.Rule

open Text Block

variable {name css : Text}

/-- A rule in what the balanced strategy leaves has a seam behind its dot and no later than at its
opening brace. -/
theorem exists_seam_in_head (free : BraceFree name) {before head block after : Text}
    (left : (cut .balanced name css).remaining = before ++ (head ++ block) ++ after)
    (isHead : IsHead name head) (isBlock : IsBlock none block) :
    ∃ seam ∈ (cut .balanced name css).seams,
      byteSize before < seam ∧ seam ≤ byteSize (before ++ head) := by
  obtain ⟨body, rfl⟩ := IsBlock.eq_cons isBlock
  have measures := measures_length? .balanced name
  have starts : head ++ '{' :: body ++ after ≠ [] := by simp
  rw [List.append_assoc] at left
  obtain ⟨front, v, -, missing, leftThere, same⟩ := Cutting.exists_kept measures starts left
  have opened : head ++ '{' :: body ++ after = (head ++ ['{']) ++ (body ++ after) := by simp
  rw [opened] at leftThere
  rcases Cutting.seam_or_front measures leftThere with ⟨seam, member, early⟩ | ⟨w, rfl, leftBehind⟩
  · have late := Cutting.pos_of_mem_seams missing member
    refine ⟨_, same seam member, by omega, ?_⟩
    have brace : byteSize (head ++ ['{']) = byteSize head + 1 := by
      rw [byteSize_append]
      rfl
    rw [byteSize_append]
    omega
  · -- The head and its brace stand in the stylesheet as they are, so the block is closed there too.
    have closes := ((isBlock_cons_iff (by simp)).mp isBlock).2
    have ends : Ends 1 (without .balanced [name] w) :=
      ⟨body, after, (remaining_cut name w).symm.trans leftBehind, closes⟩
    rw [ends_without_iff (by simpa using free) (by decide)] at ends
    obtain ⟨body', after', rfl, closes'⟩ := ends
    have isRule : IsRule .balanced name (head ++ '{' :: body') :=
      isRule_iff.mpr ⟨head, body', rfl, isHead, closes'⟩
    exact absurd isRule (length?_eq_none_iff.mp missing _ after' (by simp))

/-- Let a balanced removal of a brace-free class leave a stylesheet. Whatever rule of the class
stands in that stylesheet has a seam between its dot and its opening brace, and every rule of the
class in the stylesheet as it was lies inside a span that is taken out. -/
theorem exists_seam_of_remove (free : BraceFree name) {removal : Removal}
    (removed : remove .balanced name css = .ok (some removal)) :
    ∃ cutting, find .balanced name css = .ok cutting ∧ removal.css = cutting.remaining ∧
      (∀ before head block after, removal.css = before ++ (head ++ block) ++ after →
        IsHead name head → IsBlock none block →
          ∃ seam ∈ cutting.seams, byteSize before < seam ∧ seam ≤ byteSize (before ++ head)) ∧
      ∀ before rule after, css = before ++ rule ++ after → IsRule .balanced name rule →
        ∃ span ∈ cutting.spans, span.start ≤ byteSize before ∧
          byteSize (before ++ rule) ≤ span.stop := by
  have left : removal.css = (cut .balanced name css).remaining := by
    have whole := left_cut .balanced name css
    rw [remove_of_supports rfl, Except.ok.injEq] at removed
    rwa [removed, ← remaining_cut] at whole
  refine ⟨cut .balanced name css, by simp [find, supports], left, ?_, ?_⟩
  · intro before head block after split isHead isBlock
    exact exists_seam_in_head free (left.symm.trans split) isHead isBlock
  · intro before rule after split isRule
    exact exists_span_of_rule free split isRule

/-- A cut leaves a rule whose name stood before the cut and whose block stood behind it. -/
theorem exists_seam_of_remove_of_joined_head :
    let css := ".a.a{}{} .a{.a{}}".toList
    (BraceFree "a".toList ∧
      (remove .balanced "a".toList css).toOption = some (some ⟨".a{} ".toList, 2, 12⟩)) ∧
    ∃ cutting, find .balanced "a".toList css = .ok cutting ∧ cutting.seams = [2, 5] ∧
      ∀ before head block after, ".a{} ".toList = before ++ (head ++ block) ++ after →
        IsHead "a".toList head → IsBlock none block →
          ∃ seam ∈ cutting.seams, byteSize before < seam ∧ seam ≤ byteSize (before ++ head) := by
  intro css
  have free : BraceFree "a".toList := by decide
  have removed : remove .balanced "a".toList css = .ok (some ⟨".a{} ".toList, 2, 12⟩) :=
    congrArg Except.ok (by decide +kernel)
  refine ⟨⟨free, by rw [removed]; rfl⟩, ?_⟩
  obtain ⟨cutting, found, -, survivors, -⟩ := exists_seam_of_remove free removed
  have searched : find .balanced "a".toList css = .ok (cut .balanced "a".toList css) := rfl
  obtain rfl := Except.ok.inj (searched.symm.trans found)
  exact ⟨_, found, by decide +kernel, survivors⟩

end RulePruner.Rule
