import RulePruner.Proofs.Run.Ending
import RulePruner.Proofs.Text.Runs

/-!
# What a run takes away

`Rule.cuttingsInTurn` lists the cuttings of a pass, each of what its predecessors left. A run takes
away the characters of all their blocks and the newlines over the cap in what the last of them left,
and nothing else, so the sizes in its outcome are exact. The main statement is
`Run.charsRemoved_exact`.
-/

namespace RulePruner

open Text

namespace Rule

variable {strategy : Strategy} {name css : Text} {names : List Text}

/-- The cuttings of a pass: each class with its rules cut out of what the classes before it left. -/
def cuttingsInTurn (strategy : Strategy) : List Text → Text → List (Text × Cutting)
  | [], _ => []
  | name :: names, css =>
    (name, cut strategy name css) :: cuttingsInTurn strategy names (cut strategy name css).remaining

/-- The classes of a pass whose cutting holds a rule. -/
def foundInTurn (strategy : Strategy) (names : List Text) (css : Text) : List Text :=
  ((cuttingsInTurn strategy names css).filter fun entry => entry.2.pieces ≠ []).map Prod.fst

/-- The number of characters that a pass cuts out. -/
def charsInTurn (strategy : Strategy) (names : List Text) (css : Text) : Nat :=
  ((cuttingsInTurn strategy names css).map fun entry => entry.2.blockChars).sum

theorem foundInTurn_cons : foundInTurn strategy (name :: names) css =
    (if Occurs strategy name css then [name] else []) ++
      foundInTurn strategy names (without strategy [name] css) := by
  unfold foundInTurn
  rw [cuttingsInTurn, remaining_cut]
  by_cases occurs : Occurs strategy name css
  · have found := mt pieces_cut_eq_nil_iff.mp (not_not_intro occurs)
    simp [occurs, found]
  · have empty := pieces_cut_eq_nil_iff.mpr occurs
    simp [occurs, empty]

theorem charsInTurn_cons : charsInTurn strategy (name :: names) css =
    (cut strategy name css).blockChars +
      charsInTurn strategy names (without strategy [name] css) := by
  rw [charsInTurn, cuttingsInTurn, remaining_cut, List.map_cons, List.sum_cons, charsInTurn]

/-- A pass loses no characters but those that it cuts out. -/
theorem length_withoutInTurn_add_charsInTurn (strategy : Strategy) (names : List Text) (css : Text) :
    (withoutInTurn strategy names css).length + charsInTurn strategy names css = css.length := by
  induction names generalizing css with
  | nil => rfl
  | cons name names ih =>
    have whole := Cutting.length_remaining_add_blockChars (cut strategy name css)
    rw [text_cut, remaining_cut] at whole
    have later := ih (without strategy [name] css)
    rw [withoutInTurn, charsInTurn_cons]
    omega

/-- A class that has rules takes at least the characters of one. -/
theorem Occurs.le_blockChars (occurs : Occurs strategy name css) :
    name.length + 3 ≤ (cut strategy name css).blockChars := by
  have found : (cut strategy name css).count ≠ 0 := fun none_ =>
    pieces_cut_eq_nil_iff.mp (List.eq_nil_of_length_eq_zero none_) occurs
  exact Nat.le_trans (Nat.le_mul_of_pos_left _ (Nat.pos_of_ne_zero found))
    (count_mul_le_blockChars name css)

/-- A pass cuts out at least the characters of one rule for each class that it finds. -/
theorem sum_foundInTurn_le (strategy : Strategy) (names : List Text) (css : Text) :
    ((foundInTurn strategy names css).map fun name => name.length + 3).sum ≤
      charsInTurn strategy names css := by
  induction names generalizing css with
  | nil => exact Nat.le_refl 0
  | cons name names ih =>
    have later := ih (without strategy [name] css)
    rw [foundInTurn_cons, charsInTurn_cons]
    by_cases occurs : Occurs strategy name css
    · have := occurs.le_blockChars
      simp only [occurs, if_true, List.singleton_append, List.map_cons, List.sum_cons]
      omega
    · simp only [occurs, if_false, List.nil_append]
      omega

/-- A pass that finds no rule leaves the stylesheet as it is. -/
theorem withoutInTurn_of_foundInTurn_eq_nil :
    foundInTurn strategy names css = [] → withoutInTurn strategy names css = css := by
  induction names generalizing css with
  | nil => exact fun _ => rfl
  | cons name names ih =>
    rw [foundInTurn_cons, withoutInTurn]
    by_cases occurs : Occurs strategy name css
    · simp [occurs]
    · rw [without_of_not_occurs occurs, if_neg occurs, List.nil_append]
      exact ih

/-- A pass cuts nothing out exactly if it finds no rule. -/
theorem charsInTurn_eq_zero_iff :
    charsInTurn strategy names css = 0 ↔ foundInTurn strategy names css = [] := by
  constructor
  · intro nothing
    have atLeast := sum_foundInTurn_le strategy names css
    cases found : foundInTurn strategy names css with
    | nil => rfl
    | cons name later =>
      rw [found, List.map_cons, List.sum_cons] at atLeast
      omega
  · intro none_
    have size := length_withoutInTurn_add_charsInTurn strategy names css
    rw [withoutInTurn_of_foundInTurn_eq_nil none_] at size
    omega

/-- A pass and the cap after it take nothing exactly if no rule is found and nothing is to be capped
in the stylesheet as it was before. -/
theorem charsInTurn_add_newlineExcess_eq_zero_iff :
    charsInTurn strategy names css + newlineExcess (withoutInTurn strategy names css) = 0 ↔
      foundInTurn strategy names css = [] ∧ ¬ ['\n', '\n', '\n'] <:+: css := by
  rw [Nat.add_eq_zero_iff, charsInTurn_eq_zero_iff, newlineExcess_eq_zero_iff]
  refine and_congr_right fun none_ => ?_
  rw [withoutInTurn_of_foundInTurn_eq_nil none_]

end Rule

namespace Pass

/-- A chain of steps that succeeds has removed the classes whose cutting holds a rule. -/
theorem Steps.removed_eq {strategy : Strategy} {names : List Text} {state after : State}
    (steps : Steps strategy names state after none) :
    after.removed = state.removed ++ Rule.foundInTurn strategy names state.css := by
  induction names generalizing state with
  | nil =>
    cases steps
    exact (List.append_nil _).symm
  | cons name names ih =>
    obtain ⟨middle, step, later⟩ := steps.of_cons
    rw [ih later, Rule.foundInTurn_cons]
    cases step with
    | absent _ absent => simp [absent, Rule.without_of_not_occurs absent]
    | removed sink _ occurs _ => simp [occurs]

end Pass

namespace Run

variable {options : Options} {fileLimit : Option Nat} {sink : Sink} {tree : FileTree}
  {names : List Text} {css : Text} {outcome : Outcome}

/-- The sizes in the outcome of a successful run are those of the stylesheet that it read and of the
text that it got to, and the second is not greater. What is missing is the characters that its pass
cut out and the newlines over two in each run of what the pass left. It is at least a head and two
braces for each class removed, and nothing exactly if no class was removed and the stylesheet has no
three newlines in a row. Only an empty stylesheet has no reduction. -/
theorem charsRemoved_exact (loaded : load options tree = .ok (names, css))
    (succeeds : (Run.perform options fileLimit sink tree).result = .ok outcome) :
    let left := Rule.withoutInTurn options.strategy names css
    text? options tree sink = some (collapse left) ∧
      outcome.charsBefore = css.length ∧ outcome.charsAfter = (collapse left).length ∧
      outcome.charsAfter + outcome.charsRemoved = outcome.charsBefore ∧
      outcome.charsRemoved = Rule.charsInTurn options.strategy names css + newlineExcess left ∧
      (outcome.removed.map fun name => name.length + 3).sum ≤ outcome.charsRemoved ∧
      (outcome.charsRemoved = 0 ↔ outcome.removed = [] ∧ ¬ ['\n', '\n', '\n'] <:+: css) ∧
      (outcome.reduction = none ↔ css = []) := by
  intro left
  obtain ⟨state, steps, told, reached, -⟩ := exists_steps_of_outcome loaded succeeds
  rw [steps.css_eq.1] at told reached
  have before : outcome.charsBefore = css.length := by rw [told]; rfl
  have after : outcome.charsAfter = (collapse left).length := by rw [told]; rfl
  have lost : outcome.charsRemoved = outcome.charsBefore - outcome.charsAfter := by rw [told]; rfl
  have removed : outcome.removed = Rule.foundInTurn options.strategy names css := by
    rw [told]
    exact steps.removed_eq.trans (List.nil_append _)
  have percent : outcome.reduction = none ↔ css.length = 0 := by
    rw [told]
    exact Outcome.reduction_of_eq_none_iff _ _ _ _ _
  have cut : left.length + Rule.charsInTurn options.strategy names css = css.length :=
    Rule.length_withoutInTurn_add_charsInTurn options.strategy names css
  have capped := length_collapse_add_newlineExcess left
  have taken : outcome.charsRemoved =
      Rule.charsInTurn options.strategy names css + newlineExcess left := by omega
  have atLeast := Rule.sum_foundInTurn_le options.strategy names css
  rw [← removed] at atLeast
  refine ⟨reached, before, after, by omega, taken, by omega, ?_, ?_⟩
  · rw [taken, removed]
    exact Rule.charsInTurn_add_newlineExcess_eq_zero_iff
  · rw [percent, List.length_eq_zero_iff]

/-- The rule inside goes first and takes four characters, the one around it takes the six that are
left of it, and four of the newlines that fall together go. Characters count, not their bytes. -/
theorem charsRemoved_of_nested_rules :
    let sheet := "é{}\n\n.b{ .ä{} }\n\n\n\n.c{}".toList
    let tree := workspace "ä\nb\nd".toList sheet
    load {} tree = .ok (["ä".toList, "b".toList, "d".toList], sheet) ∧
      ∃ outcome, (Run.perform {} none {} tree).result = .ok outcome ∧
        outcome.charsBefore = 23 ∧ outcome.charsRemoved = (4 + 6) + 4 := by
  intro sheet tree
  have loaded : load {} tree = .ok (["ä".toList, "b".toList, "d".toList], sheet) :=
    (load_workspace .balanced _ _).trans (congrArg Except.ok (by decide +kernel))
  obtain ⟨outcome, succeeds⟩ := (exists_result_ok_iff loaded (fun _ _ => rfl)
    (show ({} : Sink).limit = none from rfl)).mpr (unbarred_workspace {} _ sheet)
  obtain ⟨-, before, -, -, lost, -⟩ := charsRemoved_exact loaded succeeds
  have size : sheet.length = 23 := by decide +kernel
  have cut : Rule.charsInTurn .balanced ["ä".toList, "b".toList, "d".toList] sheet = 4 + 6 := by
    decide +kernel
  have excess : newlineExcess
      (Rule.withoutInTurn .balanced ["ä".toList, "b".toList, "d".toList] sheet) = 4 := by
    decide +kernel
  exact ⟨loaded, outcome, succeeds, before.trans size, by rw [lost, cut, excess]⟩

end Run

end RulePruner
