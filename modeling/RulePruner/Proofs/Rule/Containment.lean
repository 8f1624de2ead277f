import RulePruner.Proofs.Removal
import RulePruner.Proofs.Rule.Agreement

/-!
# The fast strategy stays within the balanced one

Every rule that the fast strategy finds lies inside a rule that the balanced strategy cuts: the rule
is one for the balanced strategy too, so it starts inside a rule that is cut, and rules of a
brace-free class nest. The main statement is `Rule.spans_fast_within`: the fast strategy cuts out
nothing that the balanced one keeps.
-/

namespace RulePruner

namespace Rule

open Text

variable {strategy : Strategy} {names : List Text} {name css : Text}

/-- Whatever the strategy that finds it, a rule lies inside a span of the balanced strategy. -/
theorem exists_span_of_rule (free : BraceFree name) {before rule after : Text}
    (split : css = before ++ rule ++ after) (isRule : IsRule strategy name rule) :
    ∃ outer ∈ (cut .balanced name css).spans,
      outer.start ≤ byteSize before ∧ byteSize (before ++ rule) ≤ outer.stop := by
  obtain ⟨front, outer, rest, cuts, low, high⟩ := exists_cuts split isRule.balanced
  obtain ⟨split', isOuter⟩ := cuts_isRule cuts
  have same : before ++ rule ++ after = front ++ outer ++ rest := split.symm.trans split'
  have ends := isRule.length_le_of_nested free isOuter free same.symm low high
  refine ⟨_, Cutting.mem_spans_iff.mpr ⟨front, outer, rest, cuts, rfl⟩, ?_, ?_⟩
  · rw [List.append_assoc, List.append_assoc] at same
    exact byteSize_le_of_length_le same.symm low
  · apply byteSize_le_of_length_le same
    rwa [List.length_append, List.length_append]

/-- What the balanced strategy leaves is left by the fast strategy too. -/
theorem without_balanced_sublist (free : ∀ name ∈ names, BraceFree name) (css : Text) :
    (without .balanced names css).Sublist (without .fast names css) := by
  apply without_induction (motive := fun t left => left.Sublist (without .fast names t))
  · exact List.nil_sublist _
  · intro c t missing ih
    rw [without_cons fun name member => length?_fast_eq_none (missing name member)]
    exact ih.cons_cons c
  · intro name member rule rest isRule ih
    -- The fast strategy may keep a part of the rule, but it works on the rest of the text apart.
    rw [without_append_of_sealed free rest (isRule.sealed (free name member))]
    exact ih.trans (List.sublist_append_right _ _)

/-- Let a class be brace-free and small enough for the fast strategy. Then both strategies return,
each span of the fast one lies inside one of the balanced one, what the balanced one leaves is a
subsequence of what the fast one leaves, and the balanced one finds a rule if the fast one does. -/
theorem spans_fast_within (free : BraceFree name) (compiles : Pattern.compiles name = true)
    (css : Text) :
    ∃ shallow found fast balanced,
      spans .fast name css = .ok shallow ∧ spans .balanced name css = .ok found ∧
      remove .fast name css = .ok fast ∧ remove .balanced name css = .ok balanced ∧
      (∀ span ∈ shallow, ∃ outer ∈ found, outer.start ≤ span.start ∧ span.stop ≤ outer.stop) ∧
      (Removal.left css balanced).Sublist (Removal.left css fast) ∧
      (fast.isSome → balanced.isSome) := by
  have supported : supports .fast name = true := compiles
  refine ⟨_, _, _, _, spans_of_supports supported css, spans_of_supports rfl css,
    remove_of_supports supported css, remove_of_supports rfl css, ?_, ?_, ?_⟩
  · intro span member
    obtain ⟨before, rule, after, cuts, rfl⟩ := Cutting.mem_spans_iff.mp member
    obtain ⟨split, isRule⟩ := cuts_isRule cuts
    exact exists_span_of_rule free split isRule
  · rw [left_cut, left_cut]
    exact without_balanced_sublist (by simpa using free) css
  · rw [isSome_ofCutting?_iff, isSome_ofCutting?_iff]
    rintro ⟨before, rule, after, split, isRule⟩
    exact ⟨before, rule, after, split, isRule.balanced⟩

/-- Inside a rule that is too deep for the fast strategy stand two that it finds. -/
theorem spans_fast_within_deep_rule :
    let css := "p{}.a {{.a{1}} .a{2}}.a{3}".toList
    (BraceFree "a".toList ∧ Pattern.compiles "a".toList = true) ∧
      spans .fast "a".toList css = .ok [⟨8, 13⟩, ⟨15, 20⟩, ⟨21, 26⟩] ∧
      spans .balanced "a".toList css = .ok [⟨3, 21⟩, ⟨21, 26⟩] ∧
      ∃ fast balanced, remove .fast "a".toList css = .ok fast ∧
        remove .balanced "a".toList css = .ok balanced ∧
        (Removal.left css balanced).Sublist (Removal.left css fast) := by
  intro css
  have free : BraceFree "a".toList := by decide
  have compiles : Pattern.compiles "a".toList = true := by decide
  obtain ⟨shallow, found, fast, balanced, searched, searched', removed, removed', -, left, -⟩ :=
    spans_fast_within free compiles css
  exact ⟨⟨free, compiles⟩, congrArg Except.ok (by decide +kernel),
    congrArg Except.ok (by decide +kernel), fast, balanced, removed, removed', left⟩

end Rule

end RulePruner
