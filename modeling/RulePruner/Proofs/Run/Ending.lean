import RulePruner.Proofs.Run.Files
import RulePruner.Proofs.Run.Steps
import RulePruner.Proofs.Text.Newline
import RulePruner.Run

/-!
# Runs from their steps

A run reads its two files, goes through its classes step by step, and ends. What it reads is told by
`Run.load`, and how it ends is told by the state that its chain of steps leads to
(`Run.perform_of_steps`).
-/

namespace RulePruner

namespace Run

open Text

variable {options : Options} {sink : Sink} {tree : FileTree} {names : List Text} {css : Text}

/-- The names of the class list and the text of the stylesheet, as a run reads them. -/
def load (options : Options) (tree : FileTree) : Except Failure (List Text × Text) := do
  let list ← readText tree.read options.classList
  let sheet ← readText tree.read options.stylesheet
  return (ClassList.parse (normalize list), normalize sheet)

/-- What a run on the stylesheet `css` has to write when its pass through `names` is over. -/
def drafted (options : Options) (names : List Text) (css : Text) (state : Pass.State) :
    Option Failure → Except Failure Draft
  | some failure => .error failure
  | none =>
    let final := collapse state.css
    .ok
      { css := final
        outcome := Outcome.of state.removed css.length final.length options.strategy
          (!options.dryRun)
        listed := names.length }

/-- How a run ends with what it has to write. -/
def ending (options : Options) (fileLimit : Option Nat) (tree : FileTree) :
    Except Failure Draft → FileTree × Except Failure Outcome
  | .error failure => (tree, .error failure)
  | .ok draft =>
    if options.dryRun then (tree, .ok draft.outcome)
    else
      match tree.write fileLimit options.stylesheet (encode draft.css) with
      | (after, none) => (after, .ok draft.outcome)
      | (after, some fault) => (after, .error (.unwritable options.stylesheet fault))

/-- Whether nothing but the size of its text can keep a run from the write that it is to make. -/
def Unbarred (options : Options) (tree : FileTree) : Prop :=
  options.dryRun = false → tree.barred? options.stylesheet = none

/-- The refusal of the stylesheet, once it can be read, to take what a run writes. -/
def refusal (options : Options) (fileLimit : Option Nat) (tree : FileTree) (final : Text) :
    Option Failure :=
  if options.dryRun then none
  else (tree.refusal? fileLimit options.stylesheet (encode final)).map
    (.unwritable options.stylesheet)

/-- Where files can grow without a limit, only a read-only stylesheet refuses what a run writes. -/
theorem refusal_eq_none_iff (options : Options) (tree : FileTree) (final : Text) :
    refusal options none tree final = none ↔ Unbarred options tree := by
  cases dry : options.dryRun <;>
    simp [refusal, Unbarred, FileTree.refusal?, FileTree.Fits, dry]

/-- The text that a run has to write when its last class is handled, if it gets that far. -/
def text? (options : Options) (tree : FileTree) (sink : Sink) : Option Text :=
  (draft options tree.read sink).2.toOption.map Draft.css

theorem readText_eq_ok_iff {read : Text → Except Fault Bytes} {path t : Text} :
    readText read path = .ok t ↔ read path = .ok (encode t) := by
  unfold readText
  cases read path with
  | error fault => simp
  | ok content =>
    rw [Except.ok.injEq, ← decode?_eq_some_iff]
    cases decoded : decode? content <;> simp [decoded]

/-- Why a path does not read as a text. -/
inductive Unreadable (tree : FileTree) (path : Text) : Fault → Prop
  | unread {fault : Fault} : tree.read path = .error fault → Unreadable tree path fault
  | malformed {content : Bytes} : tree.read path = .ok content → (∀ t, content ≠ encode t) →
      Unreadable tree path .notUtf8

theorem readText_eq_error_iff {path : Text} {failure : Failure} :
    readText tree.read path = .error failure ↔
      ∃ fault, Unreadable tree path fault ∧ failure = .unreadable path fault := by
  constructor
  · intro unread
    unfold readText at unread
    split at unread
    · next fault refused => exact ⟨fault, .unread refused, (Except.error.inj unread).symm⟩
    · next content readable =>
      split at unread
      · next undecoded =>
        refine ⟨.notUtf8, .malformed readable ?_, (Except.error.inj unread).symm⟩
        rintro t rfl
        exact absurd (decode?_encode t) (by simp [undecoded])
      · cases unread
  · rintro ⟨fault, unreadable, rfl⟩
    unfold readText
    cases unreadable with
    | unread refused => rw [refused]
    | malformed readable malformed =>
      have undecoded : decode? _ = none :=
        Option.eq_none_iff_forall_ne_some.mpr fun t read => malformed t (decode?_eq_some_iff.mp read)
      simp only [readable, undecoded]

theorem load_eq_ok_iff :
    load options tree = .ok (names, css) ↔
      ∃ list sheet, readText tree.read options.classList = .ok list ∧
        readText tree.read options.stylesheet = .ok sheet ∧
        ClassList.parse (normalize list) = names ∧ normalize sheet = css := by
  simp only [load, bind, Except.bind, pure, Except.pure]
  cases readText tree.read options.classList with
  | error failure => simp
  | ok list => cases readText tree.read options.stylesheet <;> simp

/-- A run fails to read its files at the class list, or else at the stylesheet. -/
theorem load_eq_error_iff {failure : Failure} :
    load options tree = .error failure ↔
      (∃ fault, Unreadable tree options.classList fault ∧
        failure = .unreadable options.classList fault) ∨
      (∃ list, tree.read options.classList = .ok (encode list)) ∧
        ∃ fault, Unreadable tree options.stylesheet fault ∧
          failure = .unreadable options.stylesheet fault := by
  rw [← readText_eq_error_iff, ← readText_eq_error_iff]
  simp only [load, bind, Except.bind, pure, Except.pure, ← readText_eq_ok_iff]
  cases readText tree.read options.classList with
  | error failure => simp
  | ok list => cases readText tree.read options.stylesheet <;> simp

/-- No listed class has a newline in its name. -/
theorem newline_not_mem_of_load (loaded : load options tree = .ok (names, css)) {name : Text}
    (listed : name ∈ names) : '\n' ∉ name := by
  obtain ⟨list, sheet, -, -, rfl, -⟩ := load_eq_ok_iff.mp loaded
  exact ClassList.newline_not_mem_of_mem_parse listed

/-- A run whose files can be read has a stylesheet. -/
theorem exists_read_stylesheet (loaded : load options tree = .ok (names, css)) :
    ∃ content, tree.read options.stylesheet = .ok content := by
  obtain ⟨list, sheet, -, sheetRead, -⟩ := load_eq_ok_iff.mp loaded
  exact ⟨_, readText_eq_ok_iff.mp sheetRead⟩

/-- A run reads carriage returns as newlines, and no pass brings one back. -/
theorem return_not_mem_of_load (loaded : load options tree = .ok (names, css))
    (strategy : Strategy) (names' : List Text) :
    '\r' ∉ collapse (Rule.withoutInTurn strategy names' css) := by
  obtain ⟨list, sheet, -, -, -, rfl⟩ := load_eq_ok_iff.mp loaded
  intro returns
  apply not_mem_normalize sheet
  exact (Rule.withoutInTurn_sublist _ _).subset ((collapse_sublist _).subset returns)

/-- What a run reads from files that hold encoded texts. -/
theorem load_of_read {list sheet : Text}
    (listRead : tree.read options.classList = .ok (encode list))
    (sheetRead : tree.read options.stylesheet = .ok (encode sheet)) :
    load options tree = .ok (ClassList.parse (normalize list), normalize sheet) :=
  load_eq_ok_iff.mpr ⟨list, sheet, readText_eq_ok_iff.mpr listRead,
    readText_eq_ok_iff.mpr sheetRead, rfl, rfl⟩

/-- A working directory with a class list and a stylesheet where they are looked for by default. -/
def workspace (list sheet : Text) : FileTree :=
  { entries := [(["safe_to_remove_classes.txt".toList], .file (encode list)),
      (["style.css".toList], .file (encode sheet))] }

theorem load_workspace (strategy : Strategy) (list sheet : Text) :
    load { strategy := strategy } (workspace list sheet) =
      .ok (ClassList.parse (normalize list), normalize sheet) :=
  load_of_read rfl rfl

theorem unbarred_workspace (options : Options) (list sheet : Text) :
    Unbarred options (workspace list sheet) := by
  intro _
  rw [FileTree.barred?, workspace]
  split <;> rfl

theorem apart_workspace (strategy : Strategy) (list sheet : Text) :
    (workspace list sheet).locate ({ strategy := strategy } : Options).classList ≠
      (workspace list sheet).locate ({ strategy := strategy } : Options).stylesheet := by
  have listPlace : (workspace list sheet).locate ({ strategy := strategy } : Options).classList =
      .ok (.inside ["safe_to_remove_classes.txt".toList]) := rfl
  have sheetPlace : (workspace list sheet).locate ({ strategy := strategy } : Options).stylesheet =
      .ok (.inside ["style.css".toList]) := rfl
  rw [listPlace, sheetPlace]
  decide

/-- A run ends well if it has something to write, and writes it unless it is a dry run. -/
theorem ending_eq_ok_iff {fileLimit : Option Nat} {result : Except Failure Draft} {after : FileTree}
    {outcome : Outcome} :
    ending options fileLimit tree result = (after, .ok outcome) ↔
      ∃ draft, result = .ok draft ∧ draft.outcome = outcome ∧
        if options.dryRun then after = tree
        else tree.write fileLimit options.stylesheet (encode draft.css) = (after, none) := by
  cases result with
  | error failure => simp [ending]
  | ok draft =>
    by_cases dry : options.dryRun = true
    · simp [ending, dry, eq_comm, and_comm]
    · cases written : tree.write fileLimit options.stylesheet (encode draft.css) with
      | mk written refusal => cases refusal <;> simp [ending, dry, written, and_comm]

/-- What a run has to write is written unless its stylesheet refuses it. -/
theorem ending_result {old : Bytes} (readable : tree.read options.stylesheet = .ok old)
    (fileLimit : Option Nat) (draft : Draft) :
    (ending options fileLimit tree (.ok draft)).2 =
      match refusal options fileLimit tree draft.css with
      | some failure => .error failure
      | none => .ok draft.outcome := by
  have answer := FileTree.write_refusal readable fileLimit (encode draft.css)
  rw [ending, refusal, ← answer]
  cases options.dryRun with
  | true => rfl
  | false =>
    rw [if_neg Bool.false_ne_true, if_neg Bool.false_ne_true]
    cases tree.write fileLimit options.stylesheet (encode draft.css) with
    | mk after refused => cases refused <;> rfl

/-- The end of a run is told by its draft alone. -/
theorem perform_eq (options : Options) (fileLimit : Option Nat) (sink : Sink) (tree : FileTree) :
    (Run.perform options fileLimit sink tree).trace.sink =
        (draft options tree.read sink).1.sink ∧
      ((Run.perform options fileLimit sink tree).tree,
        (Run.perform options fileLimit sink tree).result) =
          ending options fileLimit tree (draft options tree.read sink).2 := by
  unfold Run.perform
  cases draft options tree.read sink with
  | mk trace result =>
    cases result with
    | error failure => exact ⟨rfl, rfl⟩
    | ok draft =>
      by_cases dry : options.dryRun = true
      · simp [ending, conclude, dry, Trace.tell]
      · simp only [ending, if_neg dry]
        cases tree.write fileLimit options.stylesheet (encode draft.css) with
        | mk after refusal => cases refusal <;> simp [conclude, Trace.tell]

/-- A run that succeeds has something to write, and has written it unless it is a dry run. -/
theorem exists_draft_of_result_ok {fileLimit : Option Nat} {outcome : Outcome}
    (succeeds : (Run.perform options fileLimit sink tree).result = .ok outcome) :
    ∃ drafted, (draft options tree.read sink).2 = .ok drafted ∧ drafted.outcome = outcome ∧
      if options.dryRun then (Run.perform options fileLimit sink tree).tree = tree
      else tree.write fileLimit options.stylesheet (encode drafted.css) =
        ((Run.perform options fileLimit sink tree).tree, none) := by
  obtain ⟨-, end_⟩ := perform_eq options fileLimit sink tree
  rw [succeeds] at end_
  exact ending_eq_ok_iff.mp end_.symm

/-- A run whose files cannot be read stops there. -/
theorem draft_of_load_error {failure : Failure} (sink : Sink)
    (unread : load options tree = .error failure) :
    (draft options tree.read sink).1.sink = sink ∧
      (draft options tree.read sink).2 = .error failure := by
  simp only [load, bind, Except.bind, pure, Except.pure] at unread
  simp only [draft, loadClassList]
  cases list : readText tree.read options.classList with
  | error fault =>
    rw [list] at unread
    obtain rfl := Except.error.inj unread
    exact ⟨rfl, rfl⟩
  | ok text =>
    rw [list] at unread
    cases sheet : readText tree.read options.stylesheet with
    | error fault =>
      rw [sheet] at unread
      obtain rfl := Except.error.inj unread
      exact ⟨rfl, rfl⟩
    | ok css =>
      rw [sheet] at unread
      simp at unread

/-- A run whose files cannot be read changes nothing. -/
theorem perform_of_load_error {failure : Failure} (fileLimit : Option Nat) (sink : Sink)
    (unread : load options tree = .error failure) :
    (Run.perform options fileLimit sink tree).trace.sink = sink ∧
      ((Run.perform options fileLimit sink tree).tree,
        (Run.perform options fileLimit sink tree).result) = (tree, .error failure) := by
  obtain ⟨sink_, draft_⟩ := draft_of_load_error sink unread
  obtain ⟨sinkEnd, end_⟩ := perform_eq options fileLimit sink tree
  rw [draft_] at end_
  exact ⟨sinkEnd.trans sink_, end_⟩

/-- A run whose files can be read makes a pass through its classes, and what it has to write is told
by that pass. -/
theorem exists_pass (loaded : load options tree = .ok (names, css)) (sink : Sink) :
    ∃ trace : Trace, trace.sink = sink ∧ trace.tallies = [] ∧
      let handled := Pass.handleAll options.strategy names ⟨css, [], trace⟩
      (draft options tree.read sink).1.sink = handled.1.trace.sink ∧
        (draft options tree.read sink).1.tallies = handled.1.trace.tallies ∧
        (draft options tree.read sink).2 = drafted options names css handled.1.state handled.2 := by
  obtain ⟨list, sheet, listRead, sheetRead, rfl, rfl⟩ := load_eq_ok_iff.mp loaded
  simp only [draft, loadClassList, listRead, sheetRead]
  generalize start : Trace.tell (Trace.tell (Trace.tell _ _) _) _ = trace
  refine ⟨trace, ?_, ?_, ?_⟩
  · rw [← start]
    rfl
  · rw [← start]
    have listing := Log.tallies_normalize list
    have parsing := Log.tallies_parse (normalize list)
    have reading := Log.tallies_normalize sheet
    simp only [Trace.tallies_tell, List.filterMap_append, List.cons_append, List.filterMap_cons,
      listing, parsing, reading]
    cases (ClassList.parse (normalize list)).isEmpty <;> rfl
  · cases Pass.handleAll options.strategy (ClassList.parse (normalize list))
      ⟨normalize sheet, [], trace⟩ with
    | mk pass failure =>
      cases failure with
      | some failure => exact ⟨rfl, rfl, rfl⟩
      | none =>
        refine ⟨rfl, ?_, rfl⟩
        rw [Trace.tallies_tell, List.filterMap_append, Log.tallies_collapse]
        cases options.dryRun <;> exact List.append_nil _

/-- A run whose files can be read goes through its classes step by step. -/
theorem exists_steps (loaded : load options tree = .ok (names, css)) (sink : Sink) :
    ∃ state failure, Pass.Steps options.strategy names ⟨css, [], sink⟩ state failure ∧
      (draft options tree.read sink).1.sink = state.sink ∧
      (draft options tree.read sink).2 = drafted options names css state failure := by
  obtain ⟨trace, sink_, -, sinkEnd, -, draft_⟩ := exists_pass loaded sink
  have steps := Pass.handleAll_steps options.strategy names ⟨css, [], trace⟩
  rw [Pass.state, sink_] at steps
  exact ⟨_, _, steps, sinkEnd, draft_⟩

/-- A run ends as its chain of steps tells. -/
theorem perform_of_steps {state : Pass.State} {failure : Option Failure} (fileLimit : Option Nat)
    (loaded : load options tree = .ok (names, css))
    (steps : Pass.Steps options.strategy names ⟨css, [], sink⟩ state failure) :
    (Run.perform options fileLimit sink tree).trace.sink = state.sink ∧
      ((Run.perform options fileLimit sink tree).tree,
        (Run.perform options fileLimit sink tree).result) =
          ending options fileLimit tree (drafted options names css state failure) := by
  obtain ⟨state', failure', steps', sink_, draft_⟩ := exists_steps loaded sink
  obtain ⟨rfl, rfl⟩ := steps.deterministic steps'
  obtain ⟨sinkEnd, end_⟩ := perform_eq options fileLimit sink tree
  exact ⟨sinkEnd.trans sink_, draft_ ▸ end_⟩

/-- A run gets to a text just if its chain of steps succeeds. -/
theorem text?_eq_some_iff (loaded : load options tree = .ok (names, css)) {t : Text} :
    text? options tree sink = some t ↔
      ∃ state, Pass.Steps options.strategy names ⟨css, [], sink⟩ state none ∧
        collapse state.css = t := by
  obtain ⟨state, failure, steps, -, draft_⟩ := exists_steps loaded sink
  rw [text?, draft_]
  constructor
  · intro reached
    cases failure with
    | some failure => simp [drafted, Except.toOption] at reached
    | none => exact ⟨state, steps, by simpa [drafted, Except.toOption] using reached⟩
  · intro reached
    rcases reached with ⟨state', steps', rfl⟩
    obtain ⟨rfl, rfl⟩ := steps.deterministic steps'
    rfl

/-- A run whose strategy can look for all its classes gets to a text if its sink takes everything.
-/
theorem exists_text?_of_unlimited (loaded : load options tree = .ok (names, css))
    (supported : ∀ name ∈ names, Rule.supports options.strategy name = true)
    (unlimited : sink.limit = none) : ∃ t, text? options tree sink = some t := by
  obtain ⟨state, failure, steps, -⟩ := exists_steps loaded sink
  obtain rfl := steps.of_unlimited supported unlimited
  exact ⟨_, (text?_eq_some_iff loaded).mpr ⟨state, steps, rfl⟩⟩

/-- A run that has something to write has read its files. -/
theorem exists_load_of_draft {drafted : Draft}
    (reached : (draft options tree.read sink).2 = .ok drafted) :
    ∃ names css, load options tree = .ok (names, css) := by
  cases loaded : load options tree with
  | error failure =>
    obtain ⟨-, stopped⟩ := draft_of_load_error sink loaded
    rw [reached] at stopped
    cases stopped
  | ok read => exact ⟨read.1, read.2, rfl⟩

/-- A run that succeeds has read its files. -/
theorem exists_load_of_result_ok {fileLimit : Option Nat} {outcome : Outcome}
    (succeeds : (Run.perform options fileLimit sink tree).result = .ok outcome) :
    ∃ names css, load options tree = .ok (names, css) := by
  obtain ⟨drafted, reached, -⟩ := exists_draft_of_result_ok succeeds
  exact exists_load_of_draft reached

/-- A run that succeeds has gone through all its classes, and its outcome is told by what they
left. -/
theorem exists_steps_of_outcome {fileLimit : Option Nat} {outcome : Outcome}
    (loaded : load options tree = .ok (names, css))
    (succeeds : (Run.perform options fileLimit sink tree).result = .ok outcome) :
    ∃ state, Pass.Steps options.strategy names ⟨css, [], sink⟩ state none ∧
      outcome = Outcome.of state.removed css.length (collapse state.css).length options.strategy
        (!options.dryRun) ∧
      text? options tree sink = some (collapse state.css) ∧
      if options.dryRun then (Run.perform options fileLimit sink tree).tree = tree
      else tree.write fileLimit options.stylesheet (encode (collapse state.css)) =
        ((Run.perform options fileLimit sink tree).tree, none) := by
  obtain ⟨drafted_, draft_, rfl, written⟩ := exists_draft_of_result_ok succeeds
  obtain ⟨state, failure, steps, -, told⟩ := exists_steps loaded sink
  rw [draft_] at told
  cases failure with
  | some failure => simp [drafted] at told
  | none =>
    obtain rfl := Except.ok.inj told
    exact ⟨state, steps, rfl, by rw [text?, draft_]; rfl, written⟩

/-- A successful run that is no dry run leaves the text that it got to in its stylesheet. -/
theorem read_of_text? {fileLimit : Option Nat} {outcome : Outcome} {final : Text}
    (wet : options.dryRun = false)
    (succeeds : (Run.perform options fileLimit sink tree).result = .ok outcome)
    (reached : text? options tree sink = some final) :
    (Run.perform options fileLimit sink tree).tree.read options.stylesheet =
      .ok (encode final) := by
  obtain ⟨names, css, loaded⟩ := exists_load_of_result_ok succeeds
  obtain ⟨state, -, -, reached', written⟩ := exists_steps_of_outcome loaded succeeds
  obtain rfl := Option.some.inj (reached.symm.trans reached')
  rw [wet, if_neg (by simp)] at written
  obtain ⟨content, readable⟩ := exists_read_stylesheet loaded
  exact (FileTree.read_write readable written).2.1 _ rfl

/-- A run that succeeds, and is no dry run, has gone through all its classes and written what they
left of the stylesheet. -/
theorem exists_steps_of_result_ok {fileLimit : Option Nat} {outcome : Outcome}
    (wet : options.dryRun = false) (loaded : load options tree = .ok (names, css))
    (succeeds : (Run.perform options fileLimit sink tree).result = .ok outcome) :
    ∃ state, Pass.Steps options.strategy names ⟨css, [], sink⟩ state none ∧
      tree.write fileLimit options.stylesheet (encode (collapse state.css)) =
        ((Run.perform options fileLimit sink tree).tree, none) := by
  obtain ⟨state, steps, -, -, written⟩ := exists_steps_of_outcome loaded succeeds
  rw [wet, if_neg (by simp)] at written
  exact ⟨state, steps, written⟩

/-- Where nothing is limited, a run whose strategy can look for all its classes succeeds unless its
stylesheet is read-only. -/
theorem exists_result_ok_iff (loaded : load options tree = .ok (names, css))
    (supported : ∀ name ∈ names, Rule.supports options.strategy name = true)
    (unlimited : sink.limit = none) :
    (∃ outcome, (Run.perform options none sink tree).result = .ok outcome) ↔
      Unbarred options tree := by
  obtain ⟨state, failure, steps, -⟩ := exists_steps loaded sink
  obtain rfl := steps.of_unlimited supported unlimited
  obtain ⟨-, end_⟩ := perform_of_steps none loaded steps
  obtain ⟨content, readable⟩ := exists_read_stylesheet loaded
  have result : (Run.perform options none sink tree).result = _ := congrArg Prod.snd end_
  rw [drafted, ending_result readable] at result
  rw [result, ← refusal_eq_none_iff options tree (collapse state.css)]
  cases refusal options none tree (collapse state.css) <;> simp

/-- Runs on sinks without a limit differ in nothing but what they write there. -/
theorem perform_of_unlimited (options : Options) (fileLimit : Option Nat) (tree : FileTree)
    {sink sink' : Sink} (unlimited : sink.limit = none) (unlimited' : sink'.limit = none) :
    (Run.perform options fileLimit sink tree).tree =
        (Run.perform options fileLimit sink' tree).tree ∧
      (Run.perform options fileLimit sink tree).result =
        (Run.perform options fileLimit sink' tree).result := by
  rw [← Prod.mk.injEq]
  cases loaded : load options tree with
  | error failure =>
    have stopped := (perform_of_load_error fileLimit sink loaded).2
    exact stopped.trans (perform_of_load_error fileLimit sink' loaded).2.symm
  | ok read =>
    obtain ⟨after, failure, steps, -⟩ := exists_steps loaded sink
    obtain ⟨last, steps'⟩ := steps.exists_of_unlimited unlimited unlimited'
    have reached := (perform_of_steps fileLimit loaded steps).2
    have reached' := (perform_of_steps fileLimit loaded steps').2
    refine reached.trans (Eq.trans ?_ reached'.symm)
    cases failure <;> rfl

end Run

end RulePruner
