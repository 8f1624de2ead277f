import RulePruner.Proofs.Rule.Shallow
import RulePruner.Proofs.Run.Ending

/-!
# Fast and balanced runs

On a shallow stylesheet a fast run is a balanced run: the same classes are removed, the same lines
are written to the sink and the same text to the stylesheet, and they fail alike. The main statement
is `Run.perform_fast`.
-/

namespace RulePruner

open Text

namespace Pass

open Rule

/-- On a shallow stylesheet a fast step is a balanced one. -/
theorem Step.balanced_of_fast {name : Text} {state after : State} {failure : Option Failure}
    (step : Step .fast name state after failure) (free : BraceFree name)
    (compiles : Pattern.compiles name = true) (shallow : Shallow state.css) :
    Step .balanced name state after failure := by
  cases step with
  | oversized refused =>
    rw [supports, compiles] at refused
    simp at refused
  | absent _ absent => exact .absent rfl (mt (occurs_fast_iff shallow).mpr absent)
  | unreported sink fault _ occurs written =>
    exact .unreported sink fault rfl ((occurs_fast_iff shallow).mp occurs) written
  | removed sink _ occurs written =>
    rw [without_fast (by simpa using free) shallow]
    exact .removed sink rfl ((occurs_fast_iff shallow).mp occurs) written

/-- On a shallow stylesheet a fast chain of steps is a balanced one. -/
theorem Steps.balanced_of_fast {names : List Text} {state after : State}
    {failure : Option Failure} (steps : Steps .fast names state after failure)
    (free : ∀ name ∈ names, BraceFree name)
    (compiles : ∀ name ∈ names, Pattern.compiles name = true) (shallow : Shallow state.css) :
    Steps .balanced names state after failure := by
  induction steps with
  | done state => exact .done state
  | failed step =>
    obtain ⟨freeFirst, -⟩ := List.forall_mem_cons.mp free
    obtain ⟨compilesFirst, -⟩ := List.forall_mem_cons.mp compiles
    exact .failed (step.balanced_of_fast freeFirst compilesFirst shallow)
  | next step later ih =>
    obtain ⟨freeFirst, freeLater⟩ := List.forall_mem_cons.mp free
    obtain ⟨compilesFirst, compilesLater⟩ := List.forall_mem_cons.mp compiles
    refine .next (step.balanced_of_fast freeFirst compilesFirst shallow) ?_
    apply ih freeLater compilesLater
    -- What is left for the later classes is shallow too.
    rw [step.of_none.2.1]
    exact shallow.without (by simpa using freeFirst)

end Pass

namespace Run

/-- The strategy of a run shows in the outcome that it ends with, and only there. -/
theorem ending_with_strategy (options : Options) (strategy : Strategy) (fileLimit : Option Nat)
    (tree : FileTree) (names : List Text) (css : Text) (state : Pass.State)
    (failure : Option Failure) :
    ending { options with strategy := strategy } fileLimit tree
        (drafted { options with strategy := strategy } names css state failure) =
      (ending options fileLimit tree (drafted options names css state failure)).map id
        (Except.map fun outcome => { outcome with strategy := strategy }) := by
  cases failure with
  | some failure => rfl
  | none =>
    by_cases dry : options.dryRun = true
    · simp [ending, drafted, dry, Except.map, Outcome.of]
    · simp only [ending, drafted, dry]
      cases tree.write fileLimit options.stylesheet (encode (collapse state.css)) with
      | mk after refusal => cases refusal <;> simp [Except.map, Outcome.of]

/-- Where no class is too large for the fast strategy and no class name holds a brace, a fast run on
a shallow stylesheet leaves the same files and the same progress lines as a balanced run, and its
result differs only in the strategy that it names. -/
theorem perform_fast (options : Options) (fileLimit : Option Nat) (sink : Sink) (tree : FileTree)
    (suited : ∀ names css, load options tree = .ok (names, css) →
      (∀ name ∈ names, BraceFree name ∧ Pattern.compiles name = true) ∧ Rule.Shallow css) :
    let fast := Run.perform { options with strategy := .fast } fileLimit sink tree
    let balanced := Run.perform { options with strategy := .balanced } fileLimit sink tree
    fast.tree = balanced.tree ∧ fast.trace.sink = balanced.trace.sink ∧
      fast.result = balanced.result.map fun outcome => { outcome with strategy := .fast } := by
  intro fast balanced
  cases loaded : load options tree with
  | error failure =>
    -- Both runs stop at the file that cannot be read.
    have unread (strategy : Strategy) :
        load { options with strategy := strategy } tree = .error failure := loaded
    obtain ⟨sinkFast, endFast⟩ := perform_of_load_error fileLimit sink (unread .fast)
    obtain ⟨sinkBalanced, endBalanced⟩ := perform_of_load_error fileLimit sink (unread .balanced)
    rw [Prod.mk.injEq] at endFast endBalanced
    refine ⟨endFast.1.trans endBalanced.1.symm, sinkFast.trans sinkBalanced.symm, ?_⟩
    rw [endFast.2, endBalanced.2, Except.map]
  | ok read =>
    obtain ⟨names, css⟩ := read
    obtain ⟨each, shallow⟩ := suited names css loaded
    have read (strategy : Strategy) :
        load { options with strategy := strategy } tree = .ok (names, css) := loaded
    obtain ⟨state, failure, steps, -⟩ := exists_steps (read .fast) sink
    -- Both runs go through the same steps.
    have balancedSteps := steps.balanced_of_fast (fun name member => (each name member).1)
      (fun name member => (each name member).2) shallow
    obtain ⟨sinkFast, endFast⟩ := perform_of_steps fileLimit (read .fast) steps
    obtain ⟨sinkBalanced, endBalanced⟩ := perform_of_steps fileLimit (read .balanced) balancedSteps
    rw [ending_with_strategy, Prod.mk.injEq] at endFast endBalanced
    refine ⟨endFast.1.trans endBalanced.1.symm, sinkFast.trans sinkBalanced.symm, ?_⟩
    rw [endFast.2, endBalanced.2, Prod.map_snd, Prod.map_snd]
    cases (ending options fileLimit tree (drafted options names css state failure)).2 <;> rfl

/-- Two blocks deep, both strategies leave the same stylesheet. -/
theorem perform_fast_on_two_levels :
    let tree := workspace "card\nbadge".toList
      ".card { .badge { } }\n.row { .badge { } }\x7d".toList
    (∀ names css, load {} tree = .ok (names, css) →
      (∀ name ∈ names, BraceFree name ∧ Pattern.compiles name = true) ∧ Rule.Shallow css) ∧
    (Run.perform { strategy := .fast } none {} tree).tree = (Run.perform {} none {} tree).tree := by
  intro tree
  have suited (names : List Text) (css : Text) (loaded : load {} tree = .ok (names, css)) :
      (∀ name ∈ names, BraceFree name ∧ Pattern.compiles name = true) ∧ Rule.Shallow css := by
    obtain ⟨rfl, rfl⟩ :=
      Prod.mk.inj (Except.ok.inj ((load_workspace .balanced _ _).symm.trans loaded))
    exact ⟨by decide +kernel, by decide +kernel⟩
  exact ⟨suited, (perform_fast {} none {} tree suited).1⟩

end Run

end RulePruner
