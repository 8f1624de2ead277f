import RulePruner.Proofs.Run.Frame
import RulePruner.Proofs.Text.LineEnds

/-!
# Runs and the spelling of line ends

A run is told by what it reads, and it reads every line end as a newline. So it does not matter how
the line ends of its class list and its stylesheet are spelled, but for a stylesheet that the run
does not come to write, which stays as it is spelled. The main statement is `Run.perform_respelled`.
-/

namespace RulePruner

open Text

namespace FileTree

/-- In two trees a path leads to a text and to a text that differs from it in the spelling of its
line ends only. -/
def Respelled (path : Text) (tree tree' : FileTree) : Prop :=
  ∃ t u, Text.Respelled t u ∧ tree.read path = .ok (encode t) ∧ tree'.read path = .ok (encode u)

end FileTree

namespace Run

variable {options : Options} {fileLimit : Option Nat} {sink : Sink} {tree tree' : FileTree}
  {names : List Text} {css : Text} {run : Run}

/-- Runs read the same from files that differ in the spelling of their line ends. -/
theorem exists_load_of_respelled (list : FileTree.Respelled options.classList tree tree')
    (sheet : FileTree.Respelled options.stylesheet tree tree') :
    ∃ names css, load options tree = .ok (names, css) ∧ load options tree' = .ok (names, css) := by
  obtain ⟨t, u, listSpelled, listRead, listRead'⟩ := list
  obtain ⟨s, v, sheetSpelled, sheetRead, sheetRead'⟩ := sheet
  refine ⟨ClassList.parse t, s, ?_, ?_⟩
  · rw [load_of_read listRead sheetRead, normalize_of_not_mem listSpelled.clean,
      normalize_of_not_mem sheetSpelled.clean]
  · rw [load_of_read listRead' sheetRead', listSpelled.normalize_eq, sheetSpelled.normalize_eq]

/-- Runs that read the same have the same to write and have written the same to their sinks. -/
theorem draft_eq_of_load (loaded : load options tree = .ok (names, css))
    (loaded' : load options tree' = .ok (names, css)) (sink : Sink) :
    (draft options tree'.read sink).1.sink = (draft options tree.read sink).1.sink ∧
      (draft options tree'.read sink).2 = (draft options tree.read sink).2 := by
  obtain ⟨state, failure, steps, sinkEnd, draft_⟩ := exists_steps loaded sink
  obtain ⟨state', failure', steps', sinkEnd', draft_'⟩ := exists_steps loaded' sink
  obtain ⟨rfl, rfl⟩ := steps.deterministic steps'
  exact ⟨sinkEnd'.trans sinkEnd.symm, draft_'.trans draft_.symm⟩

/-- Whether a stylesheet that is there can be written does not depend on what it held before. -/
theorem ending_result_eq {old old' : Bytes} (readable : tree.read options.stylesheet = .ok old)
    (readable' : tree'.read options.stylesheet = .ok old')
    (alike : tree'.barred? options.stylesheet = tree.barred? options.stylesheet)
    (fileLimit : Option Nat) (result : Except Failure Draft) :
    (ending options fileLimit tree' result).2 = (ending options fileLimit tree result).2 := by
  cases result with
  | error failure => rfl
  | ok draft =>
    rw [ending_result readable, ending_result readable', refusal, refusal, FileTree.refusal?,
      FileTree.refusal?, alike]

/-- A run that comes to its write leaves as much of its text as fits in the stylesheet. -/
theorem Ends.read_of_text? {final : Text} (ends : Ends options fileLimit sink tree run)
    (wet : options.dryRun = false) (unbarred : tree.barred? options.stylesheet = none)
    (reached : text? options tree sink = some final) :
    run.tree.read options.stylesheet = .ok (FileTree.clip fileLimit (encode final)) := by
  cases ends with
  | stopped _ missing => cases reached.symm.trans missing
  | spared _ dry => cases dry.symm.trans wet
  | barred _ barred => cases unbarred.symm.trans barred.barred
  | brokenOff final' bound overruns _ here =>
    obtain rfl := Option.some.inj (reached.symm.trans overruns.reached)
    rw [here, overruns.limited, FileTree.clip]
  | written final' _ _ reached' _ fits _ here =>
    obtain rfl := Option.some.inj (reached.symm.trans reached')
    rw [here, fits.clip_eq]

/-- A run that does not come to its write, or finds its stylesheet read-only, leaves the files as
they are. -/
theorem Ends.tree_eq_of_unwritten (ends : Ends options fileLimit sink tree run)
    (unwritten : options.dryRun = true ∨ text? options tree sink = none ∨
      tree.barred? options.stylesheet ≠ none) : run.tree = tree := by
  cases ends with
  | stopped _ _ _ same => exact same
  | spared _ _ same => exact same
  | barred _ _ same => exact same
  | brokenOff _ _ overruns =>
    simp [overruns.wet, overruns.reached, overruns.unbarred] at unwritten
  | written _ _ wet reached unbarred => simp [wet, reached, unbarred] at unwritten

/-- However the line ends of its class list and its stylesheet are spelled, a run has the same
result, writes the same to its sink and gets to the same text. If it comes to write that text to a
stylesheet that is not read-only, it leaves the same bytes there; otherwise it leaves the files as
they are. A run that succeeds, and is no dry run, leaves no carriage return in the stylesheet. -/
theorem perform_respelled (options : Options) (fileLimit : Option Nat) (sink : Sink) :
    (∀ tree tree', FileTree.Respelled options.classList tree tree' →
      FileTree.Respelled options.stylesheet tree tree' →
      tree'.barred? options.stylesheet = tree.barred? options.stylesheet →
      let run := Run.perform options fileLimit sink tree
      let run' := Run.perform options fileLimit sink tree'
      run'.result = run.result ∧ run'.trace.sink = run.trace.sink ∧
        text? options tree' sink = text? options tree sink ∧
        (options.dryRun = false → tree.barred? options.stylesheet = none →
          ∀ final, text? options tree sink = some final →
          ∃ content, run.tree.read options.stylesheet = .ok content ∧
            run'.tree.read options.stylesheet = .ok content) ∧
        (options.dryRun = true ∨ text? options tree sink = none ∨
            tree.barred? options.stylesheet ≠ none →
          run.tree = tree ∧ run'.tree = tree')) ∧
    ∀ tree outcome, options.dryRun = false →
      (Run.perform options fileLimit sink tree).result = .ok outcome →
      ∃ final, (Run.perform options fileLimit sink tree).tree.read options.stylesheet =
        .ok (encode final) ∧ '\r' ∉ final := by
  constructor
  · intro tree tree' list sheet alike run run'
    obtain ⟨names, css, loaded, loaded'⟩ := exists_load_of_respelled list sheet
    obtain ⟨sinkSame, draftSame⟩ := draft_eq_of_load loaded loaded' sink
    obtain ⟨sinkEnd, end_⟩ := perform_eq options fileLimit sink tree
    obtain ⟨sinkEnd', end_'⟩ := perform_eq options fileLimit sink tree'
    obtain ⟨t, u, -, readable, readable'⟩ := sheet
    have textSame : text? options tree' sink = text? options tree sink := by
      rw [text?, text?, draftSame]
    have ends := perform_ends options fileLimit sink tree
    have ends' := perform_ends options fileLimit sink tree'
    refine ⟨?_, sinkEnd'.trans (sinkSame.trans sinkEnd.symm), textSame, ?_, ?_⟩
    · have result := congrArg Prod.snd end_
      have result' := congrArg Prod.snd end_'
      rw [draftSame, ending_result_eq readable readable' alike] at result'
      exact result'.trans result.symm
    · intro wet unbarred final reached
      exact ⟨_, ends.read_of_text? wet unbarred reached,
        ends'.read_of_text? wet (alike.trans unbarred) (textSame.trans reached)⟩
    · intro unwritten
      refine ⟨ends.tree_eq_of_unwritten unwritten, ends'.tree_eq_of_unwritten ?_⟩
      rwa [textSame, alike]
  · intro tree outcome wet succeeds
    obtain ⟨names, css, loaded⟩ := exists_load_of_result_ok succeeds
    obtain ⟨state, steps, -, reached, -⟩ := exists_steps_of_outcome loaded succeeds
    refine ⟨_, read_of_text? wet succeeds reached, ?_⟩
    rw [steps.css_eq.1]
    exact return_not_mem_of_load loaded options.strategy _

/-- Whether runs leave the same bytes in the stylesheet, however the line ends of their class list
and their stylesheet are spelled. -/
def SpellingBlind (options : Options) : Prop :=
  ∀ fileLimit sink tree tree', FileTree.Respelled options.classList tree tree' →
    FileTree.Respelled options.stylesheet tree tree' →
    tree'.barred? options.stylesheet = tree.barred? options.stylesheet →
    (Run.perform options fileLimit sink tree').tree.read options.stylesheet =
      (Run.perform options fileLimit sink tree).tree.read options.stylesheet

/-- A run that leaves the stylesheet as it is leaves its line ends as they are spelled. -/
theorem not_spellingBlind_of_untouched {strategy : Strategy} {dryRun : Bool} (list : Text)
    (clean : '\r' ∉ list)
    (untouched : ∀ sheet, (Run.perform { strategy := strategy, dryRun := dryRun } none {}
      (workspace list sheet)).tree = workspace list sheet) :
    ¬ SpellingBlind { strategy := strategy, dryRun := dryRun } := by
  intro blind
  have newline := normalize_pair []
  have same := blind none {} (workspace list ['\n']) (workspace list ['\r', '\n'])
    ⟨list, list, .refl clean, rfl, rfl⟩
    ⟨['\n'], ['\r', '\n'], respelled_iff.mpr newline, rfl, rfl⟩ rfl
  rw [untouched, untouched] at same
  exact absurd (Except.ok.inj same) (by decide)

/-- Some class is too large for the fast strategy, and is listed all the same. -/
theorem exists_oversized : ∃ name : Text, '\r' ∉ name ∧ ClassList.parse name = [name] ∧
    Rule.supports .fast name = false := by
  refine ⟨List.replicate Pattern.nameLimit 'a', ?_, ?_, ?_⟩
  · simp
  · apply ClassList.parse_eq_singleton
    · rw [Ne, List.replicate_eq_nil_iff]
      decide
    · simp
    · apply ClassList.trim_of_forall_not_blank
      intro c member
      rw [List.eq_of_mem_replicate member]
      decide
  · have large := length_le_byteSize (List.replicate Pattern.nameLimit 'a')
    rw [List.length_replicate] at large
    simpa [Rule.supports, Pattern.compiles] using large

/-- A dry run leaves the line ends of the stylesheet as they are spelled, and so does a fast run
that stops at a class that is too large. -/
theorem not_spellingBlind :
    ¬ SpellingBlind { dryRun := true } ∧ ¬ SpellingBlind { strategy := .fast } := by
  constructor
  · exact not_spellingBlind_of_untouched [] (by simp) fun sheet =>
      (perform_ends _ none {} (workspace [] sheet)).tree_eq_of_dryRun rfl
  · obtain ⟨name, clean, listed, large⟩ := exists_oversized
    refine not_spellingBlind_of_untouched name clean fun sheet => ?_
    have loaded := load_workspace .fast name sheet
    rw [normalize_of_not_mem clean, listed] at loaded
    have refused : Pass.Steps .fast [name] ⟨normalize sheet, [], {}⟩ _ _ :=
      .failed (.oversized large)
    obtain ⟨-, end_⟩ := perform_of_steps none loaded refused
    exact congrArg Prod.fst end_

/-- Mixed line ends on both files, a carriage return before a pair among them. The gap of three
newlines is capped, and what is written has newlines only. -/
theorem perform_respelled_of_mixed_line_ends :
    let tree := workspace "a\nb\n".toList ".a{}\n\n\n.c{}\n".toList
    let tree' := workspace "a\r\nb\r".toList ".a{}\r\r\n\n.c{}\r".toList
    let run := Run.perform {} none {} tree
    let run' := Run.perform {} none {} tree'
    FileTree.Respelled ({} : Options).classList tree tree' ∧
      FileTree.Respelled ({} : Options).stylesheet tree tree' ∧
      run'.result = run.result ∧
      run'.tree.read ({} : Options).stylesheet = .ok (encode "\n\n.c{}\n".toList) := by
  intro tree tree' run run'
  have list : FileTree.Respelled ({} : Options).classList tree tree' :=
    ⟨_, _, respelled_iff.mpr (by decide +kernel), rfl, rfl⟩
  have sheet : FileTree.Respelled ({} : Options).stylesheet tree tree' :=
    ⟨_, _, respelled_iff.mpr (by decide +kernel), rfl, rfl⟩
  obtain ⟨alike, -⟩ := perform_respelled {} none {}
  obtain ⟨result, -, -, bytes, -⟩ := alike tree tree' list sheet rfl
  have reached : text? {} tree {} = some "\n\n.c{}\n".toList := by decide +kernel
  obtain ⟨content, here, here'⟩ := bytes rfl rfl _ reached
  refine ⟨list, sheet, result, ?_⟩
  rw [here', ← here]
  exact (perform_ends {} none {} tree).read_of_text? rfl rfl reached

end Run

end RulePruner
