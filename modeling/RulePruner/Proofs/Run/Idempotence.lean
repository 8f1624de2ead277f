import Mathlib.Data.List.Flatten
import RulePruner.Proofs.Rule.Newline
import RulePruner.Proofs.Rule.Separation
import RulePruner.Proofs.Rule.Shallow
import RulePruner.Proofs.Run.Ending

/-!
# Running twice

A second run on what a first run left succeeds, and it changes nothing exactly if the first run left
no rule of a listed class (`Run.noOp_iff`). A cut can put such a rule together: from what stands on
both sides of it, or, for the fast strategy, by making the block around it shallower. On a separated
stylesheet, which is to be shallow for the fast strategy, no cut does.
-/

namespace RulePruner

open Text

theorem Text.length_encode_le {s t : Text} (sublist : s.Sublist t) :
    (encode s).length ≤ (encode t).length :=
  (sublist.flatMap String.utf8EncodeChar).length_le

namespace Run

/-- A run that does nothing: it succeeds without a class or a character removed, writes nothing to
its sink, and leaves every file as it reads. -/
structure NoOp (tree : FileTree) (sink : Sink) (run : Run) : Prop where
  succeeds : ∃ outcome, run.result = .ok outcome ∧ outcome.removed = [] ∧ outcome.charsRemoved = 0
  silent : run.trace.sink = sink
  unchanged : ∀ path, run.tree.read path = tree.read path

variable {options : Options} {fileLimit : Option Nat} {sink later : Sink} {tree : FileTree}
  {names : List Text} {css : Text} {outcome : Outcome}

section SecondRun

variable (wet : options.dryRun = false)
  (apart : tree.locate options.classList ≠ tree.locate options.stylesheet)
  (loaded : load options tree = .ok (names, css))
  (succeeds : (Run.perform options fileLimit sink tree).result = .ok outcome)
include wet apart loaded succeeds

/-- What a second run reads: the same class list, and the stylesheet that the first run wrote. -/
theorem load_second :
    load options (Run.perform options fileLimit sink tree).tree =
      .ok (names, collapse (Rule.withoutInTurn options.strategy names css)) := by
  obtain ⟨state, steps, written⟩ := exists_steps_of_result_ok wet loaded succeeds
  obtain ⟨list, sheet, listRead, sheetRead, rfl, rfl⟩ := load_eq_ok_iff.mp loaded
  obtain ⟨-, rewritten, kept⟩ :=
    FileTree.read_write (readText_eq_ok_iff.mp sheetRead) written
  rw [← steps.css_eq.1]
  refine load_eq_ok_iff.mpr ⟨list, collapse state.css, ?_, ?_, rfl, ?_⟩
  · exact readText_eq_ok_iff.mpr ((kept _ apart).trans (readText_eq_ok_iff.mp listRead))
  · exact readText_eq_ok_iff.mpr (rewritten _ rfl)
  · apply normalize_of_not_mem
    rw [steps.css_eq.1]
    exact return_not_mem_of_load loaded options.strategy _

/-- A second run goes through all its classes and writes what they leave. -/
theorem exists_steps_second (unlimited : later.limit = none) :
    let first := Run.perform options fileLimit sink tree
    let second := Run.perform options fileLimit later first.tree
    let final := collapse (Rule.withoutInTurn options.strategy names css)
    ∃ state, Pass.Steps options.strategy names ⟨final, [], later⟩ state none ∧
      second.trace.sink = state.sink ∧
      first.tree.read options.stylesheet = .ok (encode final) ∧
      first.tree.write fileLimit options.stylesheet (encode (collapse state.css)) =
        (second.tree, none) ∧
      second.result = .ok (Outcome.of state.removed final.length (collapse state.css).length
        options.strategy true) := by
  intro first second final
  have loadedSecond := load_second wet apart loaded succeeds
  obtain ⟨state, steps, written⟩ := exists_steps_of_result_ok wet loaded succeeds
  obtain ⟨css_, supported⟩ := steps.css_eq
  obtain ⟨content, readable⟩ := exists_read_stylesheet loaded
  obtain ⟨-, rewritten, -⟩ := FileTree.read_write readable written
  have stands := rewritten _ rfl
  obtain ⟨state', failure', steps', -⟩ := exists_steps loadedSecond later
  obtain rfl := steps'.of_unlimited supported unlimited
  -- What the second pass leaves is no longer than what the first run wrote.
  have shorter : (encode (collapse state'.css)).length ≤ (encode (collapse state.css)).length := by
    refine length_encode_le ((collapse_sublist _).trans ?_)
    rw [steps'.css_eq.1, css_]
    exact Rule.withoutInTurn_sublist names _
  obtain ⟨after, writtenSecond⟩ := FileTree.write_shorter readable written shorter
  obtain ⟨sinkEnd, end_⟩ := perform_of_steps fileLimit loadedSecond steps'
  simp only [ending, drafted, wet] at end_
  rw [css_] at stands
  rw [writtenSecond, if_neg (by simp), Prod.mk.injEq] at end_
  refine ⟨state', steps', sinkEnd, stands, ?_, end_.2⟩
  rw [writtenSecond, end_.1]

/-- A first run leaves what cutting the classes out one after the other leaves. A second run
succeeds, and it does nothing exactly if no listed class has a rule in that text. -/
theorem noOp_iff (unlimited : later.limit = none) :
    let first := Run.perform options fileLimit sink tree
    let second := Run.perform options fileLimit later first.tree
    first.tree.read options.stylesheet =
        .ok (encode (collapse (Rule.withoutInTurn options.strategy names css))) ∧
      (∃ again, second.result = .ok again) ∧
      (NoOp first.tree later second ↔ ∀ name ∈ names, ¬ Rule.Occurs options.strategy name
        (Rule.withoutInTurn options.strategy names css)) := by
  intro first second
  obtain ⟨state, steps, sink_, stands, written, result⟩ :=
    exists_steps_second wet apart loaded succeeds unlimited
  refine ⟨stands, ⟨_, result⟩, ?_⟩
  constructor
  · rintro ⟨⟨again, result', removed, -⟩, -, -⟩ name listed
    obtain rfl := Except.ok.inj (result.symm.trans result')
    have absent := (steps.eq_of_removed_eq removed).2 name listed
    rwa [Rule.occurs_collapse_iff (newline_not_mem_of_load loaded listed)] at absent
  · intro absent
    obtain ⟨rfl, -⟩ := steps.of_absent steps.css_eq.2 fun name listed => by
      rw [Rule.occurs_collapse_iff (newline_not_mem_of_load loaded listed)]
      exact absent name listed
    rw [collapse_collapse] at written result
    refine ⟨⟨_, result, rfl, Nat.sub_self _⟩, sink_, fun path => ?_⟩
    -- The second run writes the stylesheet as it stands.
    obtain ⟨-, rewritten, kept⟩ := FileTree.read_write stands written
    by_cases same : first.tree.locate path = first.tree.locate options.stylesheet
    · rw [rewritten path same, FileTree.read_congr same, stands]
    · exact kept path same

end SecondRun

/-- On a separated stylesheet, which is to be shallow for the fast strategy, a pass leaves no rule
of a listed class. -/
theorem not_occurs_withoutInTurn {strategy : Strategy} (plain : ∀ name ∈ names, Rule.Plain name)
    (separated : Rule.Separated names [] css)
    (shallow : strategy = .fast → Rule.Shallow css) :
    ∀ name ∈ names, ¬ Rule.Occurs strategy name (Rule.withoutInTurn strategy names css) := by
  have free : ∀ name ∈ names, BraceFree name := fun name listed => (plain name listed).braceFree
  intro name listed
  have absent := separated.not_occurs_without plain name listed
  rw [← Rule.withoutInTurn_eq plain separated] at absent
  cases strategy with
  | balanced => exact absent
  | fast =>
    obtain ⟨same, shallowLeft⟩ := Rule.withoutInTurn_fast free (shallow rfl)
    rwa [same, Rule.occurs_fast_iff shallowLeft]

/-- After a successful run that is no dry run and has its class list apart from its stylesheet, a
second run with a sink that takes everything succeeds. It does nothing exactly if no listed class
has a rule in what cutting the classes out one after the other left, and so it does after a run on a
separated stylesheet, which is to be shallow for the fast strategy. -/
theorem second_run_noOp_iff (wet : options.dryRun = false)
    (apart : tree.locate options.classList ≠ tree.locate options.stylesheet)
    (succeeds : (Run.perform options fileLimit sink tree).result = .ok outcome)
    (unlimited : later.limit = none) :
    let first := Run.perform options fileLimit sink tree
    let second := Run.perform options fileLimit later first.tree
    ∃ names css, load options tree = .ok (names, css) ∧
      first.tree.read options.stylesheet =
        .ok (encode (collapse (Rule.withoutInTurn options.strategy names css))) ∧
      (∃ again, second.result = .ok again) ∧
      (NoOp first.tree later second ↔ ∀ name ∈ names, ¬ Rule.Occurs options.strategy name
        (Rule.withoutInTurn options.strategy names css)) ∧
      ((∀ name ∈ names, Rule.Plain name) → Rule.Separated names [] css →
        (options.strategy = .fast → Rule.Shallow css) → NoOp first.tree later second) := by
  intro first second
  obtain ⟨names, css, loaded⟩ := exists_load_of_result_ok succeeds
  obtain ⟨left, succeedsAgain, noOp⟩ := noOp_iff wet apart loaded succeeds unlimited
  refine ⟨names, css, loaded, left, succeedsAgain, noOp, ?_⟩
  intro plain separated shallow
  exact noOp.mpr (not_occurs_withoutInTurn plain separated shallow)

/-- Where the classes stand in selectors of their own, a second run does nothing. -/
theorem second_run_noOp_on_two_rules :
    let tree := workspace "card\nbadge\n".toList ".card { .row { } }\n\n\n.badge { }".toList
    let first := Run.perform {} none {} tree
    (tree.locate ({} : Options).classList ≠ tree.locate ({} : Options).stylesheet ∧
      ∃ outcome, first.result = .ok outcome) ∧
    NoOp first.tree {} (Run.perform {} none {} first.tree) := by
  intro tree first
  have loaded := load_workspace .balanced "card\nbadge\n".toList
    ".card { .row { } }\n\n\n.badge { }".toList
  have apart : tree.locate ({} : Options).classList ≠ tree.locate ({} : Options).stylesheet :=
    apart_workspace .balanced _ _
  have unlimited : ({} : Sink).limit = none := rfl
  obtain ⟨outcome, succeeds⟩ :=
    (exists_result_ok_iff loaded (fun _ _ => rfl) unlimited).mpr (unbarred_workspace {} _ _)
  obtain ⟨names, css, loaded', -, -, -, noOp⟩ := second_run_noOp_iff rfl apart succeeds unlimited
  obtain ⟨rfl, rfl⟩ := Prod.mk.inj (Except.ok.inj (loaded.symm.trans loaded'))
  exact ⟨⟨apart, outcome, succeeds⟩, noOp (by decide +kernel) (by decide +kernel) (by simp)⟩

/-- Whether every second run with a strategy does nothing. -/
def AlwaysNoOp (strategy : Strategy) : Prop :=
  ∀ (options : Options) (fileLimit : Option Nat) (sink later : Sink) (tree : FileTree)
    (outcome : Outcome), options.strategy = strategy → options.dryRun = false →
    tree.locate options.classList ≠ tree.locate options.stylesheet →
    (Run.perform options fileLimit sink tree).result = .ok outcome → later.limit = none →
    NoOp (Run.perform options fileLimit sink tree).tree later
      (Run.perform options fileLimit later (Run.perform options fileLimit sink tree).tree)

/-- If a pass can leave a rule of a listed class, some second run does something. -/
theorem not_alwaysNoOp_of_occurs {strategy : Strategy} (list sheet : Text)
    (supported : ∀ name ∈ ClassList.parse (normalize list), Rule.supports strategy name = true)
    (left : ∃ name ∈ ClassList.parse (normalize list), Rule.Occurs strategy name
      (Rule.withoutInTurn strategy (ClassList.parse (normalize list)) (normalize sheet))) :
    ¬ AlwaysNoOp strategy := by
  intro always
  have loaded := load_workspace strategy list sheet
  have apart := apart_workspace strategy list sheet
  have unlimited : ({} : Sink).limit = none := rfl
  obtain ⟨outcome, succeeds⟩ :=
    (exists_result_ok_iff loaded supported unlimited).mpr (unbarred_workspace _ list sheet)
  obtain ⟨name, listed, occurs⟩ := left
  have noOp := always _ none {} {} _ outcome rfl rfl apart succeeds rfl
  exact (noOp_iff rfl apart loaded succeeds rfl).2.2.mp noOp name listed occurs

/-- With either strategy a second run can find a rule that was not there before: a cut puts it
together from both of its sides, or makes the block of a rule around it shallow enough. -/
theorem not_alwaysNoOp : ¬ AlwaysNoOp .balanced ∧ ¬ AlwaysNoOp .fast := by
  constructor
  · exact not_alwaysNoOp_of_occurs "a".toList "..a{}a{}".toList (by decide +kernel)
      (by decide +kernel)
  · exact not_alwaysNoOp_of_occurs "card\nbadge".toList
      ".card { .row { .badge { color: red; } } }".toList (by decide +kernel) (by decide +kernel)

end Run

end RulePruner
