import Mathlib.Data.List.DropRight
import RulePruner.Proofs.Rule.Shape

/-!
# Where rules can start

Behind a boundary, which is a brace, a semicolon or the end of a comment, a new rule can start, and
so it can at the start of a stylesheet; blanks in between play no part. A class name without
boundaries puts no such place into the head of its rules.
-/

namespace RulePruner.Rule

open Text

/-- The texts behind which a new rule can start. -/
def boundaries : List Text := [['{'], ['}'], [';'], ['*', '/']]

/-- Whether a rule can start behind a text: apart from the blanks at its end, the text is empty or
ends in a boundary. -/
def AtRuleStart (before : Text) : Prop :=
  before.rdropWhile isBlank = [] ∨
    ∃ boundary ∈ boundaries, boundary <:+ before.rdropWhile isBlank

instance (before : Text) : Decidable (AtRuleStart before) := by
  unfold AtRuleStart
  infer_instance

/-- A class name that holds no boundary. -/
def Plain (name : Text) : Prop := ∀ boundary ∈ boundaries, ¬ boundary <:+: name

instance (name : Text) : Decidable (Plain name) := by
  unfold Plain
  infer_instance

theorem Plain.braceFree {name : Text} (plain : Plain name) : BraceFree name := by
  constructor
  · intro opens
    obtain ⟨front, rest, rfl⟩ := List.append_of_mem opens
    exact plain ['{'] (by decide) ⟨front, rest, by simp⟩
  · intro closes
    obtain ⟨front, rest, rfl⟩ := List.append_of_mem closes
    exact plain ['}'] (by decide) ⟨front, rest, by simp⟩

theorem rdropWhile_append {before rest : Text} :
    (before ++ rest).rdropWhile isBlank =
      if rest.rdropWhile isBlank = [] then before.rdropWhile isBlank
      else before ++ rest.rdropWhile isBlank := by
  simp only [List.rdropWhile, List.reverse_append, List.dropWhile_append, List.isEmpty_iff,
    List.reverse_eq_nil_iff]
  split
  · rfl
  · rw [List.reverse_append, List.reverse_reverse]

theorem rdropWhile_append_of_ne_nil {before rest : Text} (shown : rest.rdropWhile isBlank ≠ []) :
    (before ++ rest).rdropWhile isBlank = before ++ rest.rdropWhile isBlank := by
  rw [rdropWhile_append, if_neg shown]

theorem rdropWhile_dot (rest : Text) :
    ('.' :: rest).rdropWhile isBlank = '.' :: rest.rdropWhile isBlank := by
  have shown : ['.'].rdropWhile isBlank = ['.'] := by decide
  rw [← List.singleton_append, rdropWhile_append, shown]
  split
  · rename_i empty
    rw [empty]
  · rfl

theorem atRuleStart_append_blanks {before blanks : Text} (blank : ∀ c ∈ blanks, isBlank c) :
    AtRuleStart (before ++ blanks) ↔ AtRuleStart before := by
  rw [AtRuleStart, rdropWhile_append, if_pos (List.rdropWhile_eq_nil_iff.mpr blank), AtRuleStart]

theorem dot_not_mem_boundary {boundary : Text} (given : boundary ∈ boundaries) :
    '.' ∉ boundary := by
  revert boundary
  decide

/-- No rule can start between a dot and the end of a plain name behind it. -/
theorem not_atRuleStart_dot {before q name : Text} (plain : Plain name) (front : q <+: name) :
    ¬ AtRuleStart (before ++ '.' :: q) := by
  rw [AtRuleStart, rdropWhile_append_of_ne_nil (by simp [rdropWhile_dot]), rdropWhile_dot]
  intro start
  rcases start with empty | ⟨boundary, given, ends⟩
  · simp at empty
  · have noDot := dot_not_mem_boundary given
    rcases List.suffix_or_suffix_of_suffix ends (List.suffix_append before _) with inside | beyond
    · rcases List.suffix_cons_iff.mp inside with rfl | inside
      · simp at noDot
      · have within := inside.isInfix.trans ((List.rdropWhile_prefix _ q).trans front).isInfix
        exact plain boundary given within
    · exact noDot (beyond.subset (by simp))

/-- No rule can start inside the head of a rule of a plain class. -/
theorem IsHead.not_atRuleStart {before p head name : Text} (isHead : IsHead name head)
    (plain : Plain name) (front : p <+: head) (inside : p ≠ []) :
    ¬ AtRuleStart (before ++ p) := by
  obtain ⟨blanks, rfl, blank⟩ := isHead
  rcases prefix_append_cases front with early | ⟨b, early, rfl⟩
  · obtain ⟨q, rfl, within⟩ := (List.prefix_cons_iff.mp early).resolve_left inside
    exact not_atRuleStart_dot plain within
  · have blank : ∀ c ∈ b, isBlank c := fun c member => blank c (early.subset member)
    rw [← List.append_assoc, atRuleStart_append_blanks blank]
    exact not_atRuleStart_dot plain (List.prefix_refl name)

/-- Behind a closing brace a boundary is told from the text that follows the brace alone. -/
theorem suffix_of_suffix_append {x z boundary : Text} (closed : ['}'] <:+ x) (more : z ≠ [])
    (given : boundary ∈ boundaries) (ends : boundary <:+ x ++ z) : boundary <:+ z := by
  obtain ⟨front, rfl⟩ := closed
  rcases List.suffix_or_suffix_of_suffix ends (List.suffix_append (front ++ ['}']) z) with
    inside | beyond
  · exact inside
  · simp only [boundaries, List.mem_cons, List.not_mem_nil, or_false] at given
    rcases given with rfl | rfl | rfl | rfl
    -- A boundary of one character is all there is behind the brace.
    case inr.inr.inr =>
      rcases List.suffix_cons_iff.mp beyond with rfl | beyond
      · exact List.suffix_refl _
      · obtain rfl : z = ['/'] := by
          rcases List.suffix_cons_iff.mp beyond with same | empty
          · exact same
          · exact absurd (List.suffix_nil.mp empty) more
        obtain ⟨y, same⟩ := ends
        rw [List.append_assoc] at same
        exact absurd (List.append_inj_right' same rfl) (by decide)
    all_goals
      rcases List.suffix_cons_iff.mp beyond with rfl | empty
      · exact List.suffix_refl _
      · exact absurd (List.suffix_nil.mp empty) more

/-- A place behind a closed rule stays one where a rule can start when that rule and what is before
it give way to a text behind which a rule can start. -/
theorem AtRuleStart.of_append_closed {x y q : Text} (closed : ['}'] <:+ x)
    (start : AtRuleStart y) (behind : AtRuleStart (x ++ q)) : AtRuleStart (y ++ q) := by
  by_cases blank : ∀ c ∈ q, isBlank c
  · exact (atRuleStart_append_blanks blank).mpr start
  · -- The last character of `q` that is no blank ends the boundary.
    have shown : q.rdropWhile isBlank ≠ [] := by
      rwa [Ne, List.rdropWhile_eq_nil_iff]
    rw [AtRuleStart, rdropWhile_append_of_ne_nil shown] at behind ⊢
    rcases behind with empty | ⟨boundary, given, ends⟩
    · exact absurd (List.append_eq_nil_iff.mp empty).2 shown
    · refine Or.inr ⟨boundary, given, ?_⟩
      exact (suffix_of_suffix_append closed shown given ends).trans (List.suffix_append y _)

end RulePruner.Rule
