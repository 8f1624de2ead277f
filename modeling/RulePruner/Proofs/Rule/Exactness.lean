import RulePruner.Proofs.Cutting
import RulePruner.Proofs.Rule.Boundary
import RulePruner.Removal

/-!
# Which rules are found

The rules that are found in a stylesheet are the outermost ones: those that do not stand inside
another rule of the class. What stands before the dot plays no part, so a rule whose selector only
ends in the class is found too, and its block is taken for a block of the class. The main statement
is `Rule.forall_startsRule_iff`: everything found starts a rule of the stylesheet exactly if every
outermost rule of the class does.
-/

namespace RulePruner.Rule

open Text

variable {strategy : Strategy} {name css : Text}

/-- A rule of the class that does not start inside another rule of the class. -/
structure Outermost (strategy : Strategy) (name before rule after : Text) : Prop where
  isRule : IsRule strategy name rule
  outside : ∀ front outer rest, before ++ rule ++ after = front ++ outer ++ rest →
    IsRule strategy name outer → front.length < before.length →
    front.length + outer.length ≤ before.length

/-- Whether a rule of the stylesheet can start at a byte offset. -/
def StartsRule (css : Text) (offset : Nat) : Prop :=
  ∃ before rest, css = before ++ rest ∧ byteSize before = offset ∧ AtRuleStart before

theorem cuts_isRule {before rule after : Text}
    (cuts : (cut strategy name css).Cuts before rule after) :
    css = before ++ rule ++ after ∧ IsRule strategy name rule := by
  obtain ⟨split, found⟩ := Cutting.cuts_of (measures_length? strategy name) cuts
  obtain ⟨rule', rest, same, size, isRule⟩ := length?_eq_some_iff.mp found
  obtain ⟨rfl, -⟩ := List.append_inj same size
  exact ⟨split, isRule⟩

/-- Every rule of the class starts inside a rule that is cut. -/
theorem exists_cuts {before rule after : Text} (split : css = before ++ rule ++ after)
    (isRule : IsRule strategy name rule) :
    ∃ front outer rest, (cut strategy name css).Cuts front outer rest ∧
      front.length ≤ before.length ∧ before.length < front.length + outer.length := by
  rw [List.append_assoc] at split
  exact Cutting.exists_cuts_of (measures_length? strategy name) split (isRule.length?_append after)

/-- The rules that are cut are the outermost ones. -/
theorem cuts_iff_outermost (free : BraceFree name) {before rule after : Text} :
    (cut strategy name css).Cuts before rule after ↔
      css = before ++ rule ++ after ∧ Outermost strategy name before rule after := by
  constructor
  · intro cuts
    obtain ⟨split, isRule⟩ := cuts_isRule cuts
    refine ⟨split, isRule, ?_⟩
    intro front outer rest same isOuter earlier
    -- The outer rule starts inside a rule that is cut, which ends before this one starts.
    obtain ⟨front', outer', rest', cuts', low, high⟩ := exists_cuts (split.trans same) isOuter
    obtain ⟨split', isOuter'⟩ := cuts_isRule cuts'
    have ends := isOuter.length_le_of_nested free isOuter' free
      (split'.symm.trans (split.trans same)) low high
    have apart := cuts'.disjoint cuts (by omega)
    omega
  · rintro ⟨split, isRule, outside⟩
    obtain ⟨front, outer, rest, cuts, low, high⟩ := exists_cuts split isRule
    obtain ⟨split', isOuter⟩ := cuts_isRule cuts
    rcases Nat.lt_or_eq_of_le low with earlier | same
    · have := outside front outer rest (split.symm.trans split') isOuter earlier
      omega
    · have whole := split.symm.trans split'
      rw [List.append_assoc, List.append_assoc] at whole
      obtain ⟨rfl, behind⟩ := List.append_inj whole same.symm
      obtain rfl := isRule.unique isOuter free free behind
      obtain rfl := List.append_cancel_left behind
      exact cuts

/-- The spans of a class are the byte ranges of its outermost rules. -/
theorem mem_spans_iff_outermost {found : List Span} {span : Span} (free : BraceFree name)
    (searched : spans strategy name css = .ok found) :
    span ∈ found ↔ ∃ before rule after, css = before ++ rule ++ after ∧
      Outermost strategy name before rule after ∧
      span = ⟨byteSize before, byteSize (before ++ rule)⟩ := by
  obtain rfl : found = (cut strategy name css).spans := by
    simp only [spans, find] at searched
    split at searched
    · exact (Except.ok.inj searched).symm
    · simp [Except.map] at searched
  rw [Cutting.mem_spans_iff]
  simp only [cuts_iff_outermost free, and_assoc]

theorem startsRule_iff {before rest : Text} :
    StartsRule (before ++ rest) (byteSize before) ↔ AtRuleStart before := by
  constructor
  · intro starts
    rcases starts with ⟨front, behind, split, size, start⟩
    rwa [eq_of_byteSize_eq split size.symm]
  · intro start
    exact ⟨before, rest, rfl, rfl, start⟩

/-- The spans of a class are the byte ranges of its outermost rules, and all of them start a rule of
the stylesheet exactly if every outermost rule of the class stands where a rule can start. -/
theorem forall_startsRule_iff {found : List Span} (free : BraceFree name)
    (searched : spans strategy name css = .ok found) :
    (∀ span, span ∈ found ↔ ∃ before rule after, css = before ++ rule ++ after ∧
      Outermost strategy name before rule after ∧
      span = ⟨byteSize before, byteSize (before ++ rule)⟩) ∧
    ((∀ span ∈ found, StartsRule css span.start) ↔
      ∀ before rule after, css = before ++ rule ++ after →
        Outermost strategy name before rule after → AtRuleStart before) := by
  refine ⟨fun span => mem_spans_iff_outermost free searched, ?_, ?_⟩
  · intro starts before rule after split outermost
    have member := (mem_spans_iff_outermost free searched).mpr
      ⟨before, rule, after, split, outermost, rfl⟩
    have start := starts _ member
    rwa [split, List.append_assoc, startsRule_iff] at start
  · intro starts span member
    obtain ⟨before, rule, after, split, outermost, rfl⟩ :=
      (mem_spans_iff_outermost free searched).mp member
    rw [split, List.append_assoc, startsRule_iff]
    exact starts before rule after split outermost

/-- A class at the end of a selector list is taken for a rule of its own. -/
theorem not_forall_startsRule :
    ¬ ∀ (strategy : Strategy) (name css : Text) (found : List Span), name ≠ [] →
      trim name = name → BraceFree name → spans strategy name css = .ok found →
      ∀ span ∈ found, StartsRule css span.start := by
  intro always
  have searched : spans .balanced "bar".toList ".foo, .bar { }".toList = .ok [⟨6, 14⟩] :=
    congrArg Except.ok (by decide +kernel)
  have start := always _ _ _ _ (by decide) (by decide) (by decide) searched ⟨6, 14⟩ (by simp)
  have place : StartsRule (".foo, ".toList ++ ".bar { }".toList) (byteSize ".foo, ".toList) := start
  rw [startsRule_iff] at place
  exact absurd place (by decide)

/-- In a selector list of two classes the last class has an outermost rule that starts no rule. -/
theorem exists_outermost_in_selector_list :
    BraceFree "bar".toList ∧
    spans .fast "bar".toList ".foo, .bar { }".toList = .ok [⟨6, 14⟩] ∧
    ¬ ∀ before rule after, ".foo, .bar { }".toList = before ++ rule ++ after →
      Outermost .fast "bar".toList before rule after → AtRuleStart before := by
  have searched : spans .fast "bar".toList ".foo, .bar { }".toList = .ok [⟨6, 14⟩] :=
    congrArg Except.ok (by decide +kernel)
  refine ⟨by decide, searched, ?_⟩
  rw [← (forall_startsRule_iff (by decide) searched).2]
  intro starts
  have place : StartsRule (".foo, ".toList ++ ".bar { }".toList) (byteSize ".foo, ".toList) :=
    starts ⟨6, 14⟩ (by simp)
  rw [startsRule_iff] at place
  exact absurd place (by decide)

end RulePruner.Rule
