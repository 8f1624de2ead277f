import RulePruner.Proofs.Run.Accounting

/-!
# What a run leaves of the files

A run touches no file but its stylesheet, and the stylesheet only with its last write. It can stop
before the write, spare the stylesheet because it is a dry run, find it read-only, break off the
write where the stylesheet has reached the size that files can grow to, or write all of it
(`Run.Ends`). The main statement is `Run.perform_frame`.
-/

namespace RulePruner

namespace Pass

variable {strategy : Strategy} {names : List Text} {state after : State} {failure : Failure}

/-- A chain of steps stops at a refused class or at a refused line of progress. -/
theorem Steps.of_some (steps : Steps strategy names state after (some failure)) :
    (∃ name ∈ names, failure = .oversized name) ∨ ∃ fault, failure = .unreported fault := by
  induction names generalizing state with
  | nil => cases steps
  | cons name names ih =>
    cases steps with
    | failed step =>
      cases step with
      | oversized => exact Or.inl ⟨name, List.mem_cons_self, rfl⟩
      | unreported sink fault => exact Or.inr ⟨fault, rfl⟩
    | next step later =>
      rcases ih later with ⟨refused, listed, rfl⟩ | unreported
      · exact Or.inl ⟨refused, List.mem_cons_of_mem name listed, rfl⟩
      · exact Or.inr unreported

end Pass

namespace Run

open Text

variable {options : Options} {fileLimit : Option Nat} {sink : Sink} {tree : FileTree}
  {names : List Text} {css : Text} {failure : Failure} {outcome : Outcome}

theorem exists_unreadable_of_load (unread : load options tree = .error failure) :
    ∃ path fault, failure = .unreadable path fault := by
  rcases load_eq_error_iff.mp unread with ⟨fault, -, rfl⟩ | ⟨-, fault, -, rfl⟩
  · exact ⟨_, fault, rfl⟩
  · exact ⟨_, fault, rfl⟩

/-- Nothing is written before the last class is handled, so nothing fails to be written. -/
theorem ne_unwritable_of_draft (stopped : (draft options tree.read sink).2 = .error failure)
    (path : Text) (fault : Fault) : failure ≠ .unwritable path fault := by
  cases loaded : load options tree with
  | error unread =>
    obtain ⟨-, draft_⟩ := draft_of_load_error sink loaded
    obtain rfl := Except.error.inj (draft_.symm.trans stopped)
    obtain ⟨path', fault', rfl⟩ := exists_unreadable_of_load loaded
    exact fun same => by cases same
  | ok read =>
    obtain ⟨state, stop, steps, -, draft_⟩ := exists_steps loaded sink
    rw [stopped] at draft_
    cases stop with
    | none => cases draft_
    | some stop =>
      obtain rfl := Except.error.inj draft_
      rcases steps.of_some with ⟨name, -, rfl⟩ | ⟨refusal, rfl⟩ <;> exact fun same => by cases same

/-- A run has a text to write, and its stylesheet is read-only. -/
structure Barred (options : Options) (sink : Sink) (tree : FileTree) (fault : Fault) : Prop where
  wet : options.dryRun = false
  reached : ∃ final, text? options tree sink = some final
  barred : tree.barred? options.stylesheet = some fault

/-- The text that a run has to write is longer than files can grow. -/
structure Overruns (options : Options) (fileLimit : Option Nat) (sink : Sink) (tree : FileTree)
    (final : Text) (bound : Nat) : Prop where
  wet : options.dryRun = false
  reached : text? options tree sink = some final
  unbarred : tree.barred? options.stylesheet = none
  limited : fileLimit = some bound
  longer : bound < (encode final).length

/-- How a run can end, and what it leaves of the files. -/
inductive Ends (options : Options) (fileLimit : Option Nat) (sink : Sink) (tree : FileTree)
    (run : Run) : Prop
  /-- It stops before it has anything to write. -/
  | stopped (failure : Failure) : text? options tree sink = none →
      (∀ path fault, failure ≠ .unwritable path fault) → run.tree = tree →
      run.result = .error failure → Ends options fileLimit sink tree run
  /-- It is a dry run and spares the stylesheet. -/
  | spared (outcome : Outcome) : options.dryRun = true → run.tree = tree →
      run.result = .ok outcome → Ends options fileLimit sink tree run
  /-- The stylesheet is read-only and stays as it is. -/
  | barred (fault : Fault) : Barred options sink tree fault → run.tree = tree →
      run.result = .error (.unwritable options.stylesheet fault) →
      Ends options fileLimit sink tree run
  /-- The stylesheet is written as far as files can grow. -/
  | brokenOff (final : Text) (bound : Nat) : Overruns options fileLimit sink tree final bound →
      tree.Frame options.stylesheet run.tree →
      run.tree.read options.stylesheet = .ok ((encode final).take bound) →
      run.result = .error (.unwritable options.stylesheet .fileTooLarge) →
      Ends options fileLimit sink tree run
  /-- All of the stylesheet is written. -/
  | written (final : Text) (outcome : Outcome) : options.dryRun = false →
      text? options tree sink = some final → tree.barred? options.stylesheet = none →
      FileTree.Fits fileLimit (encode final) → tree.Frame options.stylesheet run.tree →
      run.tree.read options.stylesheet = .ok (encode final) → run.result = .ok outcome →
      Ends options fileLimit sink tree run

theorem perform_ends (options : Options) (fileLimit : Option Nat) (sink : Sink)
    (tree : FileTree) :
    Ends options fileLimit sink tree (Run.perform options fileLimit sink tree) := by
  obtain ⟨-, end_⟩ := perform_eq options fileLimit sink tree
  cases draft_ : (draft options tree.read sink).2 with
  | error failure =>
    rw [draft_, ending, Prod.mk.injEq] at end_
    exact .stopped failure (by rw [text?, draft_]; rfl) (ne_unwritable_of_draft draft_)
      end_.1 end_.2
  | ok drafted =>
    have reached : text? options tree sink = some drafted.css := by rw [text?, draft_]; rfl
    rw [draft_, ending] at end_
    cases dry : options.dryRun with
    | true =>
      rw [dry, if_pos rfl, Prod.mk.injEq] at end_
      exact .spared drafted.outcome dry end_.1 end_.2
    | false =>
      rw [dry, if_neg Bool.false_ne_true] at end_
      obtain ⟨names, css, loaded⟩ := exists_load_of_draft draft_
      obtain ⟨old, readable⟩ := exists_read_stylesheet loaded
      cases barred : tree.barred? options.stylesheet with
      | some fault =>
        rw [FileTree.write_of_barred readable barred, Prod.mk.injEq] at end_
        exact .barred fault ⟨dry, ⟨_, reached⟩, barred⟩ end_.1 end_.2
      | none =>
        obtain ⟨after, write_, frame, here⟩ :=
          FileTree.write_of_read readable barred fileLimit (encode drafted.css)
        rw [write_] at end_
        by_cases fits : FileTree.Fits fileLimit (encode drafted.css)
        · rw [if_pos fits, Prod.mk.injEq] at end_
          obtain ⟨rfl, result⟩ := end_
          rw [fits.clip_eq] at here
          exact .written drafted.css drafted.outcome dry reached barred fits frame here result
        · rw [if_neg fits, Prod.mk.injEq] at end_
          obtain ⟨rfl, result⟩ := end_
          obtain ⟨bound, rfl, longer⟩ := FileTree.exists_of_not_fits fits
          exact .brokenOff drafted.css bound ⟨dry, reached, barred, rfl, longer⟩ frame here result

namespace Ends

variable {run : Run}

theorem frame (ends : Ends options fileLimit sink tree run) :
    tree.Frame options.stylesheet run.tree := by
  cases ends with
  | stopped _ _ _ same => exact same ▸ .refl options.stylesheet tree
  | spared _ _ same => exact same ▸ .refl options.stylesheet tree
  | barred _ _ same => exact same ▸ .refl options.stylesheet tree
  | brokenOff _ _ _ frame => exact frame
  | written _ _ _ _ _ _ frame => exact frame

theorem tree_eq_of_dryRun (ends : Ends options fileLimit sink tree run)
    (dry : options.dryRun = true) : run.tree = tree := by
  cases ends with
  | stopped _ _ _ same => exact same
  | spared _ _ same => exact same
  | barred _ _ same => exact same
  | brokenOff _ _ overruns => cases dry.symm.trans overruns.wet
  | written _ _ wet => cases dry.symm.trans wet

/-- A run that fails, but not with its write, leaves the files as they are. -/
theorem tree_eq_of_early (ends : Ends options fileLimit sink tree run)
    (fails : run.result = .error failure)
    (early : ∀ path fault, failure ≠ .unwritable path fault) : run.tree = tree := by
  cases ends with
  | stopped _ _ _ same => exact same
  | spared _ _ same => exact same
  | barred _ _ same => exact same
  | brokenOff _ _ _ _ _ result =>
    exact absurd (Except.error.inj (fails.symm.trans result)) (early _ _)
  | written _ _ _ _ _ _ _ _ result => cases fails.symm.trans result

/-- The write of a run fails only because its stylesheet is read-only or because its text is too
long. -/
theorem of_unwritable {path : Text} {fault : Fault} (ends : Ends options fileLimit sink tree run)
    (fails : run.result = .error (.unwritable path fault)) :
    path = options.stylesheet ∧
      (Barred options sink tree fault ∨ fault = .fileTooLarge ∧
        ∃ final bound, Overruns options fileLimit sink tree final bound) := by
  cases ends with
  | stopped _ _ early _ result =>
    exact absurd (Except.error.inj (fails.symm.trans result)).symm (early path fault)
  | spared _ _ _ result => cases fails.symm.trans result
  | barred _ barred _ result =>
    obtain ⟨rfl, rfl⟩ := Failure.unwritable.inj (Except.error.inj (fails.symm.trans result))
    exact ⟨rfl, Or.inl barred⟩
  | brokenOff final bound overruns _ _ result =>
    obtain ⟨rfl, rfl⟩ := Failure.unwritable.inj (Except.error.inj (fails.symm.trans result))
    exact ⟨rfl, Or.inr ⟨rfl, final, bound, overruns⟩⟩
  | written _ _ _ _ _ _ _ _ result => cases fails.symm.trans result

/-- A stylesheet that is read-only stays as it is. -/
theorem of_barred {fault : Fault} (ends : Ends options fileLimit sink tree run)
    (barred : Barred options sink tree fault) :
    run.result = .error (.unwritable options.stylesheet fault) ∧ run.tree = tree := by
  obtain ⟨wet, ⟨final, reached⟩, refused⟩ := barred
  cases ends with
  | stopped _ missing => cases reached.symm.trans missing
  | spared _ dry => cases dry.symm.trans wet
  | barred _ barred' same result =>
    obtain rfl := Option.some.inj (refused.symm.trans barred'.barred)
    exact ⟨result, same⟩
  | brokenOff _ _ overruns => cases refused.symm.trans overruns.unbarred
  | written _ _ _ _ unbarred => cases refused.symm.trans unbarred

/-- A text that is too long is written as far as it fits. -/
theorem of_overruns {final : Text} {bound : Nat} (ends : Ends options fileLimit sink tree run)
    (overruns : Overruns options fileLimit sink tree final bound) :
    run.result = .error (.unwritable options.stylesheet .fileTooLarge) ∧
      run.tree.read options.stylesheet = .ok ((encode final).take bound) := by
  cases ends with
  | stopped _ missing => cases overruns.reached.symm.trans missing
  | spared _ dry => cases dry.symm.trans overruns.wet
  | barred _ barred => cases overruns.unbarred.symm.trans barred.barred
  | brokenOff final' bound' overruns' _ here result =>
    obtain rfl := Option.some.inj (overruns.reached.symm.trans overruns'.reached)
    obtain rfl := Option.some.inj (overruns.limited.symm.trans overruns'.limited)
    exact ⟨result, here⟩
  | written final' _ _ reached _ fits =>
    obtain rfl := Option.some.inj (overruns.reached.symm.trans reached)
    exact absurd (fits bound overruns.limited) (Nat.not_le_of_lt overruns.longer)

end Ends

/-- Runs that succeed on the same files have the same outcome, whatever their sinks are and however
long files can grow, but for whether the stylesheet was written. -/
theorem outcome_eq {dry : Bool} {fileLimit' : Option Nat} {sink' : Sink} {outcome' : Outcome}
    (succeeds : (Run.perform options fileLimit sink tree).result = .ok outcome)
    (succeeds' : (Run.perform { options with dryRun := dry } fileLimit' sink' tree).result =
      .ok outcome') :
    outcome' = { outcome with written := !dry } := by
  obtain ⟨names, css, loaded⟩ := exists_load_of_result_ok succeeds
  obtain ⟨state, steps, rfl, -⟩ := exists_steps_of_outcome loaded succeeds
  have loaded' : load { options with dryRun := dry } tree = .ok (names, css) := loaded
  obtain ⟨state', steps', rfl, -⟩ := exists_steps_of_outcome loaded' succeeds'
  rw [steps.css_eq.1, steps'.css_eq.1, steps.removed_eq, steps'.removed_eq]
  rfl

/-- A dry run with the same sink succeeds if the run does. -/
theorem exists_result_ok_of_dryRun
    (succeeds : (Run.perform options fileLimit sink tree).result = .ok outcome)
    (fileLimit' : Option Nat) :
    ∃ outcome',
      (Run.perform { options with dryRun := true } fileLimit' sink tree).result = .ok outcome' := by
  obtain ⟨names, css, loaded⟩ := exists_load_of_result_ok succeeds
  obtain ⟨state, steps, -, -⟩ := exists_steps_of_outcome loaded succeeds
  have loaded' : load { options with dryRun := true } tree = .ok (names, css) := loaded
  obtain ⟨-, end_⟩ := perform_of_steps fileLimit' loaded' steps
  exact ⟨_, (Prod.mk.inj end_).2⟩

/-- A run changes nothing but its stylesheet, and nothing at all if it is a dry run or fails before
it writes. Its write fails exactly if the stylesheet is read-only, which then stays as it is, or if
the text that it got to is longer than files can grow, and the stylesheet then holds as many bytes
of it as fit. A run that succeeds, and is no dry run, leaves that text, of the size that its outcome
gives, and the outcome is that of a dry run on the same files but for what it says of the write. -/
theorem perform_frame (options : Options) (fileLimit : Option Nat) (sink : Sink)
    (tree : FileTree) :
    let run := Run.perform options fileLimit sink tree
    let dryRun := Run.perform { options with dryRun := true }
    tree.Frame options.stylesheet run.tree ∧
      (options.dryRun = true → run.tree = tree) ∧
      (∀ failure, run.result = .error failure →
        (∀ path fault, failure ≠ .unwritable path fault) → run.tree = tree) ∧
      (∀ path fault, run.result = .error (.unwritable path fault) →
        path = options.stylesheet ∧
          (Barred options sink tree fault ∨ fault = .fileTooLarge ∧
            ∃ final bound, Overruns options fileLimit sink tree final bound)) ∧
      (∀ fault, Barred options sink tree fault →
        run.result = .error (.unwritable options.stylesheet fault) ∧ run.tree = tree) ∧
      (∀ final bound, Overruns options fileLimit sink tree final bound →
        run.result = .error (.unwritable options.stylesheet .fileTooLarge) ∧
          run.tree.read options.stylesheet = .ok ((encode final).take bound)) ∧
      ∀ outcome, options.dryRun = false → run.result = .ok outcome →
        (∃ final, text? options tree sink = some final ∧ final.length = outcome.charsAfter ∧
          run.tree.read options.stylesheet = .ok (encode final)) ∧
        outcome.written = true ∧
        (∀ fileLimit', ∃ outcome', (dryRun fileLimit' sink tree).result = .ok outcome') ∧
        ∀ fileLimit' sink' outcome', (dryRun fileLimit' sink' tree).result = .ok outcome' →
          outcome' = { outcome with written := false } := by
  intro run dryRun
  have ends := perform_ends options fileLimit sink tree
  refine ⟨ends.frame, ends.tree_eq_of_dryRun, fun _ => ends.tree_eq_of_early,
    fun _ _ => ends.of_unwritable, fun _ => ends.of_barred, fun _ _ => ends.of_overruns, ?_⟩
  intro outcome wet succeeds
  obtain ⟨names, css, loaded⟩ := exists_load_of_result_ok succeeds
  obtain ⟨state, -, told, reached, -⟩ := exists_steps_of_outcome loaded succeeds
  refine ⟨⟨collapse state.css, reached, ?_, read_of_text? wet succeeds reached⟩, ?_,
    exists_result_ok_of_dryRun succeeds, fun _ _ _ => outcome_eq succeeds⟩
  · rw [told]
    rfl
  · rw [told, wet]
    rfl

/-- The limit falls into a character. Its first byte is all that stays of the stylesheet, and the
class list stays as it is. Were the stylesheet read-only, it would stay too. -/
theorem perform_frame_of_cut_character :
    let sheet := "é.a{}".toList
    let tree := workspace "a".toList sheet
    let locked := { tree with
      readOnly := [(["style.css".toList], .other "Permission denied (os error 13)")] }
    let run := Run.perform {} (some 1) {} tree
    let refused := Run.perform {} (some 1) {} locked
    Overruns {} (some 1) {} tree "é".toList 1 ∧
      run.result = .error (.unwritable "style.css".toList .fileTooLarge) ∧
      run.tree.read "style.css".toList = .ok [0xC3] ∧
      run.tree.read "safe_to_remove_classes.txt".toList = .ok (encode "a".toList) ∧
      refused.result = .error
        (.unwritable "style.css".toList (.other "Permission denied (os error 13)")) ∧
      refused.tree = locked := by
  intro sheet tree locked run refused
  have overruns : Overruns {} (some 1) {} tree "é".toList 1 :=
    ⟨rfl, by decide +kernel, rfl, rfl, by decide +kernel⟩
  have barred : Barred {} {} locked (.other "Permission denied (os error 13)") :=
    ⟨rfl, ⟨"é".toList, by decide +kernel⟩, by decide +kernel⟩
  obtain ⟨frame, -, -, -, -, cut, -⟩ := perform_frame {} (some 1) {} tree
  obtain ⟨-, -, -, -, kept, -⟩ := perform_frame {} (some 1) {} locked
  obtain ⟨fails, left⟩ := cut _ _ overruns
  refine ⟨overruns, fails, left.trans (congrArg Except.ok (by decide +kernel)), ?_, kept _ barred⟩
  rw [frame.read (apart_workspace .balanced _ _)]
  rfl

end Run

end RulePruner
