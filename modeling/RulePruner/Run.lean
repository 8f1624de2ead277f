import RulePruner.FileTree
import RulePruner.Options.Basic
import RulePruner.Run.Pass

/-!
Runs: the class list and the stylesheet are read, the listed classes are removed one after the
other, newline runs are capped, and the stylesheet is written unless the run is a dry one. Up to
the write a run only needs to be told what reading a path gives; `Run.draft` is that part, and
`Run.perform` is the whole run on a file tree.
-/

namespace RulePruner

namespace Run

/-- A text as it is read from a file. -/
def readText (read : Text → Except Fault Bytes) (path : Text) : Except Failure Text :=
  match read path with
  | .error fault => .error (.unreadable path fault)
  | .ok content =>
    match Text.decode? content with
    | none => .error (.unreadable path .notUtf8)
    | some t => .ok t

/-- The names of a class list as it is read from a file. -/
def loadClassList (read : Text → Except Fault Bytes) (path : Text) :
    List Event × Except Failure (List Text) :=
  match readText read path with
  | .error failure => ([.readingClassList path], .error failure)
  | .ok t =>
    let lines := Text.normalize t
    let names := ClassList.parse lines
    (.readingClassList path :: Log.normalize t ++ Log.parse lines ++
      [.loadedClasses names.length], .ok names)

/-- What is left to do when the last class is handled. -/
structure Draft where
  /-- The new content of the stylesheet. -/
  css : Text
  /-- The outcome if the stylesheet can be written. -/
  outcome : Outcome
  /-- The number of names in the class list. -/
  listed : Nat

/-- A run up to the moment at which the stylesheet is written. -/
def draft (options : Options) (read : Text → Except Fault Bytes) (sink : Sink) :
    Trace × Except Failure Draft :=
  let path := options.stylesheet
  let (events, loaded) := loadClassList read options.classList
  let trace := Trace.tell { sink := sink } (.starting options.strategy :: events)
  match loaded with
  | .error failure => (trace, .error failure)
  | .ok names =>
    let trace := trace.tell
      ((if names.isEmpty then [.noClasses options.classList] else []) ++ [.readingStylesheet path])
    match readText read path with
    | .error failure => (trace, .error failure)
    | .ok t =>
      let css := Text.normalize t
      let trace := trace.tell (Log.normalize t ++ [.loadedStylesheet path css.length])
      match Pass.handleAll options.strategy names ⟨css, [], trace⟩ with
      | (pass, some failure) => (pass.trace, .error failure)
      | (pass, none) =>
        let final := Text.collapse pass.css
        let last := if options.dryRun then .leftUntouched path else .writing final.length path
        (pass.trace.tell (Log.collapse pass.css ++ [last]),
          .ok
            { css := final
              outcome := Outcome.of pass.removed css.length final.length options.strategy
                (!options.dryRun)
              listed := names.length })

/-- The end of a run, after the stylesheet is written or refused. -/
def conclude (options : Options) (draft : Draft) (refusal : Option Fault) :
    List Event × Except Failure Outcome :=
  match refusal with
  | some fault => ([], .error (.unwritable options.stylesheet fault))
  | none =>
    ([.finished draft.outcome.removed.length draft.listed], .ok draft.outcome)

end Run

/-- A run that is over. -/
structure Run where
  tree : FileTree
  trace : Trace
  result : Except Failure Outcome

/-- A whole run on a file tree, whose files can perhaps only grow to a limit. -/
def Run.perform (options : Options) (fileLimit : Option Nat) (sink : Sink) (tree : FileTree) :
    Run :=
  match Run.draft options tree.read sink with
  | (trace, .error failure) => ⟨tree, trace, .error failure⟩
  | (trace, .ok draft) =>
    let (tree, refusal) :=
      if options.dryRun then (tree, none)
      else tree.write fileLimit options.stylesheet (Text.encode draft.css)
    let (events, result) := Run.conclude options draft refusal
    ⟨tree, trace.tell events, result⟩

end RulePruner
