import RulePruner.CommandLine

/-!
The program on the files of the machine. Everything that it decides is in the modules it imports.
-/

namespace RulePruner

/-- The fault behind an error of the system. -/
def Fault.ofError : IO.Error → Fault
  | .noFileOrDirectory .. => .notFound
  | .inappropriateType _ code _ => if code = 21 then .isDirectory else .notDirectory
  | .permissionDenied _ code details =>
    if code = 27 then .fileTooLarge else .other (details ++ " (os error " ++ toString code ++ ")")
  | error => .other (toString error)

/-- The content of a file, or why it cannot be read. -/
def readFile (path : Text) : IO (Except Fault Bytes) := do
  try
    let content ← IO.FS.readBinFile (String.ofList path)
    return .ok content.toList
  catch error => return .error (Fault.ofError error)

/-- Gives a file new content and says why that is refused, if it is. -/
def writeFile (path : Text) (content : Bytes) : IO (Option Fault) := do
  try
    IO.FS.writeBinFile (String.ofList path) content.toByteArray
    return none
  catch error => return some (Fault.ofError error)

/-- The variables of the environment that decide on colours. -/
def readEnvironment : IO (String → Option String) := do
  let forced ← IO.getEnv CommandLine.forcing
  let forbidden ← IO.getEnv CommandLine.forbidding
  return fun key =>
    if key = CommandLine.forcing then forced
    else if key = CommandLine.forbidding then forbidden
    else none

/-- Carries out a run. -/
def carryOut (environment : String → Option String) (options : Options) (json : Bool) :
    IO Response := do
  let classList ← readFile options.classList
  let stylesheet ← readFile options.stylesheet
  let read (path : Text) := if path = options.classList then classList else stylesheet
  let (trace, drafted) := Run.draft options read {}
  let result ← match drafted with
    | .error failure => pure (.error failure)
    | .ok draft => do
      let refusal ← if options.dryRun then pure none
        else writeFile options.stylesheet (Text.encode draft.css)
      pure (Run.conclude options draft refusal).2
  return CommandLine.respond options json (CommandLine.colored environment) trace.sink.taken result

end RulePruner

open RulePruner in
/-- Reads the command line, does what it asks for, and answers. -/
def main (arguments : List String) : IO UInt32 := do
  let environment ← readEnvironment
  let response ← match Options.parse .program (arguments.map String.toList) with
    | .error error => pure (CommandLine.refuse environment error)
    | .ok (.help detailed) => pure (CommandLine.help environment detailed)
    | .ok (.run options json) => carryOut environment options json
  let stdout ← IO.getStdout
  stdout.write response.stdout.toByteArray
  stdout.flush
  let stderr ← IO.getStderr
  stderr.write response.stderr.toByteArray
  return response.exitCode.toUInt32
