import RulePruner.Proofs.Rule.Newline
import RulePruner.Proofs.Run.Ending

/-!
# Capping newline runs once

A run caps the newline runs of its stylesheet once, after its last class. A pass that caps them
before its first class and again after each one holds another text at every step, but it finds as
many rules of each class and leads to the same end. The main statement is `Run.perform_capping`.
-/

namespace RulePruner

open Text

namespace Rule

variable {name css css' : Text}

/-- From stylesheets that differ in their newline runs only, a class is removed alike. -/
theorem remove_congr (strategy : Strategy) (plain : '\n' ∉ name)
    (same : collapse css = collapse css') :
    (∃ failure, remove strategy name css = .error failure ∧
      remove strategy name css' = .error failure) ∨
    (remove strategy name css = .ok none ∧ remove strategy name css' = .ok none) ∨
    ∃ removal removal', remove strategy name css = .ok (some removal) ∧
      remove strategy name css' = .ok (some removal') ∧ removal.count = removal'.count ∧
      collapse removal.css = collapse removal'.css := by
  by_cases supported : supports strategy name = true
  · have occurs : Occurs strategy name css ↔ Occurs strategy name css' := by
      rw [← occurs_collapse_iff plain css, same, occurs_collapse_iff plain css']
    by_cases found : Occurs strategy name css
    · obtain ⟨removal, removed, left, size⟩ := remove_of_occurs supported found
      obtain ⟨removal', removed', left', size'⟩ := remove_of_occurs supported (occurs.mp found)
      have capped := cut_collapse strategy plain css
      have capped' := cut_collapse strategy plain css'
      rw [← same] at capped'
      refine Or.inr (Or.inr ⟨removal, removal', removed, removed', ?_, ?_⟩)
      · rw [size, size', ← capped.count, ← capped'.count]
      · rw [left, left', ← remaining_cut, ← remaining_cut]
        exact capped.left.symm.trans capped'.left
    · exact Or.inr (Or.inl ⟨remove_of_not_occurs supported found,
        remove_of_not_occurs supported (mt occurs.mpr found)⟩)
  · rw [Bool.not_eq_true] at supported
    exact Or.inl ⟨_, remove_of_oversized supported, remove_of_oversized supported⟩

end Rule

namespace Pass

/-- A pass with the newline runs of its stylesheet capped. -/
def capped (pass : Pass) : Pass := { pass with css := collapse pass.css }

/-- Removes classes one after the other like `handleAll`, and caps the newline runs of the
stylesheet after each of them. -/
def handleAllCapping (strategy : Strategy) : List Text → Pass → Pass × Option Failure
  | [], pass => (pass, none)
  | name :: names, pass =>
    match pass.handle strategy name with
    | (after, none) => handleAllCapping strategy names after.capped
    | (after, some failure) => (after, some failure)

/-- Two passes that have removed as many rules of the same classes, have written the same to their
sinks, and hold stylesheets that differ in their newline runs only. -/
structure Alike (pass pass' : Pass) : Prop where
  css : collapse pass.css = collapse pass'.css
  removed : pass.removed = pass'.removed
  sink : pass.trace.sink = pass'.trace.sink
  tallies : pass.trace.tallies = pass'.trace.tallies

variable {pass pass' : Pass}

theorem Alike.capped (alike : Alike pass pass') : Alike pass pass'.capped :=
  ⟨alike.css.trans (collapse_collapse pass'.css).symm, alike.removed, alike.sink, alike.tallies⟩

/-- The log is told how many rules a class had, if it had any. -/
theorem tallies_handle (strategy : Strategy) (name : Text) (pass : Pass) :
    (pass.handle strategy name).1.trace.tallies = pass.trace.tallies ++
      match Rule.remove strategy name pass.css with
      | .ok (some removal) => [(name, removal.count)]
      | _ => [] := by
  have search : (Event.checking name :: Log.search strategy name).filterMap Event.tally? = [] := by
    cases strategy <;> rfl
  have searched : (pass.tell (.checking name :: Log.search strategy name)).trace.tallies =
      pass.trace.tallies := by
    rw [tell, Trace.tallies_tell, search, List.append_nil]
  unfold handle
  cases Rule.remove strategy name pass.css with
  | error failure => rw [searched, List.append_nil]
  | ok found =>
    cases found with
    | none => rw [searched, List.append_nil]
    | some removal =>
      have found : ((pass.tell (.checking name :: Log.search strategy name)).tell
          (Log.removed name removal ++ [.matched name removal.count])).trace.tallies =
          pass.trace.tallies ++ [(name, removal.count)] := by
        rw [tell, Trace.tallies_tell, searched]
        rfl
      rw [← found]
      dsimp only
      split <;> rfl

/-- Handling a class keeps passes alike, and they stop alike. -/
theorem Alike.handle {name : Text} (alike : Alike pass pass') (strategy : Strategy)
    (plain : '\n' ∉ name) :
    (pass.handle strategy name).2 = (pass'.handle strategy name).2 ∧
      Alike (pass.handle strategy name).1 (pass'.handle strategy name).1 := by
  obtain ⟨css, removed, sink, tallies⟩ := alike
  have told := tallies_handle strategy name pass
  have told' := tallies_handle strategy name pass'
  rw [tallies] at told
  unfold Pass.handle at told told' ⊢
  rcases Rule.remove_congr strategy plain css with
    ⟨failure, here, here'⟩ | ⟨here, here'⟩ | ⟨removal, removal', here, here', count, left⟩
  · rw [here] at told ⊢
    rw [here'] at told' ⊢
    exact ⟨rfl, css, removed, sink, told.trans told'.symm⟩
  · rw [here] at told ⊢
    rw [here'] at told' ⊢
    exact ⟨rfl, css, removed, sink, told.trans told'.symm⟩
  · simp only [here, tell, Trace.sink_tell, sink, count] at told ⊢
    simp only [here', tell, Trace.sink_tell] at told' ⊢
    have same := told.trans told'.symm
    cases written : pass'.trace.sink.writeAll [Report.removing name] with
    | mk after refusal =>
      rw [written] at same
      cases refusal with
      | some fault => exact ⟨rfl, css, removed, rfl, same⟩
      | none => exact ⟨rfl, left, congrArg (· ++ [name]) removed, rfl, same⟩

/-- Alike passes go through a class list alike, whether or not newline runs are capped on the way.
-/
theorem Alike.handleAll {names : List Text} (alike : Alike pass pass') (strategy : Strategy)
    (plain : ∀ name ∈ names, '\n' ∉ name) :
    (handleAll strategy names pass).2 = (handleAllCapping strategy names pass').2 ∧
      Alike (handleAll strategy names pass).1 (handleAllCapping strategy names pass').1 := by
  induction names generalizing pass pass' with
  | nil => exact ⟨rfl, alike⟩
  | cons name names ih =>
    obtain ⟨plainFirst, plainLater⟩ := List.forall_mem_cons.mp plain
    obtain ⟨stop, step⟩ := alike.handle strategy plainFirst
    rw [Pass.handleAll, handleAllCapping]
    cases handled : pass.handle strategy name with
    | mk after failure =>
      cases handled' : pass'.handle strategy name with
      | mk after' failure' =>
        rw [handled, handled'] at stop step
        obtain rfl : failure = failure' := stop
        cases failure with
        | some failure => exact ⟨rfl, step⟩
        | none => exact ih step.capped plainLater

/-- A pass that caps newline runs after each class, and goes through all its classes, leaves them
capped. -/
theorem collapse_css_handleAllCapping {strategy : Strategy} {names : List Text}
    (start : collapse pass.css = pass.css)
    (finished : (handleAllCapping strategy names pass).2 = none) :
    collapse (handleAllCapping strategy names pass).1.css =
      (handleAllCapping strategy names pass).1.css := by
  induction names generalizing pass with
  | nil => exact start
  | cons name names ih =>
    rw [handleAllCapping] at finished ⊢
    cases handled : pass.handle strategy name with
    | mk after failure =>
      rw [handled] at finished
      cases failure with
      | some failure => simp at finished
      | none => exact ih (collapse_collapse after.css) finished

end Pass

namespace Run

variable {options : Options} {tree : FileTree} {names : List Text} {css : Text}

/-- After the pass a run tells its log of no further class. -/
theorem tallies_perform (options : Options) (fileLimit : Option Nat) (sink : Sink)
    (tree : FileTree) : (Run.perform options fileLimit sink tree).trace.tallies =
      (draft options tree.read sink).1.tallies := by
  unfold Run.perform
  cases draft options tree.read sink with
  | mk trace result =>
    cases result with
    | error failure => rfl
    | ok draft =>
      have told (refusal : Option Fault) :
          (conclude options draft refusal).1.filterMap Event.tally? = [] := by
        cases refusal <;> rfl
      simp only [Trace.tallies_tell, told, List.append_nil]

/-- Alike passes leave a run the same to write. -/
theorem drafted_of_alike {pass pass' : Pass} (alike : Pass.Alike pass pass') (options : Options)
    (names : List Text) (css : Text) (failure : Option Failure) :
    drafted options names css pass.state failure = drafted options names css pass'.state failure := by
  cases failure with
  | some failure => rfl
  | none =>
    simp only [drafted, Pass.state]
    rw [alike.css, alike.removed]

/-- A run finds as many rules of the same classes, writes the same lines to its sink, and ends with
the same files and the same result as it would if it capped the newline runs of its stylesheet
before the first class and again after each class. If its strategy can look for all classes and its
sink takes everything, it gets to the text that such a pass leaves, and it succeeds with the same
classes removed if files can grow without a limit and it need not write a read-only stylesheet. -/
theorem perform_capping (fileLimit : Option Nat) (sink : Sink)
    (loaded : load options tree = .ok (names, css)) :
    let run := Run.perform options fileLimit sink tree
    let capping := Pass.handleAllCapping options.strategy names
      (Pass.capped ⟨css, [], { sink := sink }⟩)
    run.trace.tallies = capping.1.trace.tallies ∧ run.trace.sink = capping.1.trace.sink ∧
      (run.tree, run.result) =
        ending options fileLimit tree (drafted options names css capping.1.state capping.2) ∧
      ((∀ name ∈ names, Rule.supports options.strategy name = true) → sink.limit = none →
        text? options tree sink = some capping.1.css ∧
          (Unbarred options tree →
            ∃ outcome, (Run.perform options none sink tree).result = .ok outcome ∧
              outcome.removed = capping.1.removed)) := by
  intro run capping
  obtain ⟨trace, sink_, quiet, sinkEnd, talliesEnd, draftEnd⟩ := exists_pass loaded sink
  obtain ⟨sinkRun, end_⟩ := perform_eq options fileLimit sink tree
  have start : Pass.Alike ⟨css, [], trace⟩ (Pass.capped ⟨css, [], { sink := sink }⟩) :=
    Pass.Alike.capped ⟨rfl, rfl, sink_, quiet⟩
  obtain ⟨stop, alike⟩ := start.handleAll options.strategy
    fun name listed => newline_not_mem_of_load loaded listed
  have same : (draft options tree.read sink).2 =
      drafted options names css capping.1.state capping.2 := by
    rw [draftEnd, stop, drafted_of_alike alike]
  refine ⟨?_, ?_, ?_, ?_⟩
  · exact (tallies_perform options fileLimit sink tree).trans (talliesEnd.trans alike.tallies)
  · exact sinkRun.trans (sinkEnd.trans alike.sink)
  · rw [end_, same]
  · intro supported unlimited
    obtain ⟨final, reached⟩ := exists_text?_of_unlimited loaded supported unlimited
    rw [text?, same] at reached
    cases stopped : capping.2 with
    | some failure => simp [stopped, drafted, Except.toOption] at reached
    | none =>
      have left := Pass.collapse_css_handleAllCapping (collapse_collapse css) stopped
      rw [stopped] at same
      refine ⟨?_, fun unbarred => ?_⟩
      · rw [text?, same]
        exact congrArg some left
      · obtain ⟨outcome, succeeds⟩ :=
          (exists_result_ok_iff loaded supported unlimited).mpr unbarred
        obtain ⟨written, told, rfl, -⟩ := exists_draft_of_result_ok succeeds
        obtain rfl := Except.ok.inj (same.symm.trans told)
        exact ⟨_, succeeds, rfl⟩

/-- Two cuts join three runs of newlines, one of which stood in the head of a rule. -/
theorem perform_capping_of_joined_runs :
    let sheet := "p{}\n\n\n.a{}\n\n.b\n\n\n{}\nq{}".toList
    let tree := workspace "b\na\nc".toList sheet
    load {} tree = .ok (["b".toList, "a".toList, "c".toList], sheet) ∧
      (Run.perform {} none {} tree).trace.tallies = [("b".toList, 1), ("a".toList, 1)] ∧
      text? {} tree {} = some "p{}\n\nq{}".toList := by
  intro sheet tree
  have loaded : load {} tree = .ok (["b".toList, "a".toList, "c".toList], sheet) :=
    (load_workspace .balanced _ _).trans (congrArg Except.ok (by decide +kernel))
  obtain ⟨tallies, -, -, reached⟩ := perform_capping none {} loaded
  refine ⟨loaded, tallies.trans (by decide +kernel), ?_⟩
  rw [(reached (fun _ _ => rfl) rfl).1]
  exact congrArg some (by decide +kernel)

end Run

end RulePruner
