import RulePruner.Options.Usage
import RulePruner.Run

/-!
The program: arguments in, an exit code and two streams out. A run is reported on the first stream
while it goes on and when it is over; failures and refusals go to the second.
-/

namespace RulePruner

/-- What the program leaves behind when it is over. -/
structure Response where
  exitCode : Nat
  stdout : Bytes := []
  stderr : Bytes := []
  deriving DecidableEq, Repr

namespace CommandLine

/-- The environment variable that asks for colours although nothing goes to a terminal. -/
def forcing : String := "CLICOLOR_FORCE"

/-- The environment variable that asks for no colours. -/
def forbidding : String := "NO_COLOR"

/-- The environment variable that asks for a log on the second stream. A log holds times and is not
part of a response. Where the variable is unset only errors are logged, and no event is one
(`Level`). -/
def logging : String := "RUST_LOG"

/-- Whether reports are coloured, which they are once colours are asked for by anything but
nought. -/
def colored (environment : String → Option String) : Bool :=
  match environment forcing with
  | some value => value ≠ "0"
  | none => false

/-- Whether help and refusals keep their styles. A variable that is set to nothing asks for
nothing, and colours that are forbidden cannot be asked for. -/
def keepsStyles (environment : String → Option String) : Bool :=
  let asked (name : String) := (environment name).getD "" ≠ ""
  asked forcing && !asked forbidding

/-- A styled text as it goes to a stream. -/
def transmit (environment : String → Option String) (t : Styled) : Bytes :=
  Text.encode (if keepsStyles environment then t.write else t.unstyled .suspends)

/-- The text of a failure with its cause. -/
def failureText (failure : Failure) : Text :=
  match failure.chain with
  | [] => []
  | [message] => "Error: ".toList ++ message.toList ++ ['\n']
  | message :: causes =>
    "Error: ".toList ++ message.toList ++ "\n\nCaused by:\n".toList ++
      causes.flatMap fun cause => "    ".toList ++ cause.toList ++ ['\n']

/-- The report of a finished run. -/
def report (options : Options) (json colored : Bool) (outcome : Outcome) : List Text :=
  if json then Report.jsonReport outcome
  else Report.summary colored outcome ++
    if options.dryRun then Report.dryRunNote colored options.stylesheet else []

/-- The answer to a run that has written `progress`. A report in JSON stands alone. -/
def respond (options : Options) (json colored : Bool) (progress : Bytes)
    (result : Except Failure Outcome) : Response :=
  let shown := if json then [] else progress
  match result with
  | .ok outcome =>
    { exitCode := 0
      stdout := shown ++ (report options json colored outcome).flatMap Text.encode }
  | .error failure =>
    { exitCode := 1, stdout := shown, stderr := Text.encode (failureText failure) }

/-- The answer to a request for help. -/
def help (environment : String → Option String) (detailed : Bool) : Response :=
  { exitCode := 0, stdout := transmit environment (Interface.program.help detailed) }

/-- The answer to arguments that are refused. -/
def refuse (environment : String → Option String) (error : UsageError) : Response :=
  { exitCode := 2, stderr := transmit environment (error.message .program) }

/-- The whole program on a file tree, where no log is asked for (`logging`). -/
def perform (arguments : List Text) (environment : String → Option String)
    (fileLimit : Option Nat) (tree : FileTree) : FileTree × Response :=
  match Options.parse .program arguments with
  | .error error => (tree, refuse environment error)
  | .ok (.help detailed) => (tree, help environment detailed)
  | .ok (.run options json) =>
    let run := Run.perform options fileLimit {} tree
    (run.tree, respond options json (colored environment) run.trace.sink.taken run.result)

end CommandLine

end RulePruner
