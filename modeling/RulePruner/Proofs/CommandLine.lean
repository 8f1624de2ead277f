import RulePruner.CommandLine
import RulePruner.Proofs.Options.Json
import RulePruner.Proofs.Run.Course

/-!
# What the JSON flag changes

The flag that asks for JSON changes what goes to the first stream and nothing else. The main
statement is `CommandLine.perform_json`.
-/

namespace RulePruner.CommandLine

open Options

variable {options : Options} {json : Bool} {arguments : List Text} {fileLimit : Option Nat}
  {tree : FileTree}

/-- What a command line that asks for a run leaves behind. -/
theorem perform_of_parse (asked : parse .program arguments = .ok (.run options json))
    (environment : String → Option String) (fileLimit : Option Nat) (tree : FileTree) :
    perform arguments environment fileLimit tree =
      ((Run.perform options fileLimit {} tree).tree,
        respond options json (colored environment)
          (Run.perform options fileLimit {} tree).trace.sink.taken
          (Run.perform options fileLimit {} tree).result) := by
  rw [perform, asked]

/-- A command line that asks for a run can be turned into one that asks for the same run in JSON, by
putting the flag before it, and back, by leaving the flag out. Both leave the same files, exit code
and second stream, and the run could as well write its progress to any other sink without a limit.
On the first stream, the one shows the lines of the classes that matched, and if the run succeeds
its summary and perhaps the note on a dry run; the other shows the report in JSON if the run
succeeds. This is where no log is asked for: a log would go to the second stream, and tell of the
summary but not of the report in JSON. -/
theorem perform_json (options : Options) (environment : String → Option String)
    (_quiet : environment logging = none) (fileLimit : Option Nat) (tree : FileTree) :
    (∀ arguments, parse .program arguments = .ok (.run options false) →
      parse .program (Flag.json.written.toList :: arguments) = .ok (.run options true)) ∧
    (∀ arguments, parse .program arguments = .ok (.run options true) →
      ∃ front back, arguments = front ++ Flag.json.written.toList :: back ∧
        parse .program (front ++ back) = .ok (.run options false)) ∧
    (∀ sink : Sink, sink.limit = none →
      (Run.perform options fileLimit sink tree).tree = (Run.perform options fileLimit {} tree).tree ∧
      (Run.perform options fileLimit sink tree).result =
        (Run.perform options fileLimit {} tree).result) ∧
    ∀ plain reported, parse .program plain = .ok (.run options false) →
      parse .program reported = .ok (.run options true) →
      let (tree₁, shown) := perform plain environment fileLimit tree
      let (tree₂, shownJson) := perform reported environment fileLimit tree
      tree₂ = tree₁ ∧ shownJson.exitCode = shown.exitCode ∧ shownJson.stderr = shown.stderr ∧
      ∃ matched stop, Run.Course options fileLimit {} tree matched stop ∧
        match stop with
        | some failure =>
          shown.exitCode = 1 ∧ shown.stderr = Text.encode (failureText failure) ∧
            shown.stdout = Report.progress matched ∧ shownJson.stdout = []
        | none => ∃ outcome,
          (Run.perform options fileLimit {} tree).result = .ok outcome ∧ outcome.removed = matched ∧
            shown.exitCode = 0 ∧ shown.stderr = [] ∧
            shown.stdout = Report.progress matched ++
              (Report.summary (colored environment) outcome).flatMap Text.encode ++
              (if options.dryRun then
                (Report.dryRunNote (colored environment) options.stylesheet).flatMap Text.encode
              else []) ∧
            shownJson.stdout = (Report.jsonReport outcome).flatMap Text.encode := by
  refine ⟨fun _ => parse_json_cons (by decide), fun _ => exists_drop_of_parse,
    fun sink unlimited => Run.perform_of_unlimited options fileLimit tree unlimited rfl, ?_⟩
  intro plain reported asked asked'
  rw [perform_of_parse asked, perform_of_parse asked']
  obtain ⟨matched, stop, course, held, ends⟩ := Run.exists_course options fileLimit {} rfl tree
  cases stop with
  | some failure =>
    rw [ends, held]
    exact ⟨rfl, rfl, rfl, matched, some failure, course, rfl, rfl, rfl, rfl⟩
  | none =>
    obtain ⟨names, css, outcome, -, result, removed, -⟩ := ends
    rw [result, held]
    refine ⟨rfl, rfl, rfl, matched, none, course, outcome, rfl, removed, rfl, rfl, ?_, rfl⟩
    cases dry : options.dryRun <;> simp [respond, report, dry, FileTree.clip]

/-- A class is cut out, and what is left is too long for the file. The line of the class is shown,
unless the run was to report in JSON. -/
theorem perform_json_of_refused_write :
    let tree := Run.workspace "a".toList ".a{}wxyz".toList
    let plain := perform [] (fun _ => none) (some 3) tree
    let reported := perform ["--json".toList] (fun _ => none) (some 3) tree
    reported.1 = plain.1 ∧ reported.2.exitCode = plain.2.exitCode ∧
      reported.2.stderr = plain.2.stderr ∧ plain.2.exitCode = 1 ∧
      plain.2.stdout = Text.encode "Removing class: .a\n".toList ∧ reported.2.stdout = [] := by
  intro tree plain reported
  obtain ⟨extends_, -, -, alike⟩ := perform_json {} (fun _ => none) rfl (some 3) tree
  have asked : parse .program [] = .ok (.run {} false) := rfl
  obtain ⟨files, code, errors, -⟩ := alike [] ["--json".toList] asked (extends_ [] asked)
  exact ⟨files, code, errors, by decide +kernel, by decide +kernel, by decide +kernel⟩

end RulePruner.CommandLine
