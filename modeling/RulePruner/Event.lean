import RulePruner.Strategy
import RulePruner.Text.Basic

/-!
Events: what a run tells a log, each with its level and its wording.
-/

namespace RulePruner

/-- How much an event matters. -/
inductive Level where
  | trace
  | debug
  | info
  | warn
  deriving DecidableEq, Repr

/-- The name of a level in a log. -/
def Level.name : Level → String
  | trace => "TRACE"
  | debug => "DEBUG"
  | info => "INFO"
  | warn => "WARN"

/-- Something that happens on the way. -/
inductive Event where
  | starting (strategy : Strategy)
  | readingClassList (path : Text)
  | listed (name : Text)
  | loadedClasses (count : Nat)
  | noClasses (path : Text)
  | readingStylesheet (path : Text)
  | normalized (bytesBefore bytesAfter : Nat)
  | loadedStylesheet (path : Text) (chars : Nat)
  | checking (name : Text)
  | rulePattern (name pattern : Text)
  | cutOut (count : Nat) (name : Text) (bytes : Nat)
  | matched (name : Text) (count : Nat)
  | collapsed (bytesBefore bytesAfter : Nat)
  | leftUntouched (path : Text)
  | writing (chars : Nat) (path : Text)
  | finished (removed total : Nat)
  | summarizing (removed : Nat)
  deriving DecidableEq, Repr

namespace Event

/-- The level of an event. -/
def level : Event → Level
  | listed _ | normalized .. | checking _ | rulePattern .. | cutOut .. | collapsed .. => .trace
  | readingClassList _ | loadedClasses _ | readingStylesheet _ | matched .. | writing ..
  | summarizing _ => .debug
  | starting _ | loadedStylesheet .. | leftUntouched _ | finished .. => .info
  | noClasses _ => .warn

/-- The wording of an event. -/
def message : Event → String
  | starting strategy => "Starting CSS class prune (" ++ strategy.title ++ " mode)"
  | readingClassList path => "Reading class list from " ++ String.ofList path
  | listed name => "Class list entry: '" ++ String.ofList name ++ "'"
  | loadedClasses count => "Loaded " ++ toString count ++ " class names"
  | noClasses path => "No class names found in " ++ String.ofList path
  | readingStylesheet path => "Reading stylesheet from " ++ String.ofList path
  | normalized bytesBefore bytesAfter =>
    "Normalized line endings: " ++ toString bytesBefore ++ " -> " ++ toString bytesAfter ++ " bytes"
  | loadedStylesheet path chars =>
    "Loaded " ++ String.ofList path ++ " (" ++ toString chars ++ " characters)"
  | checking name => "Checking class: '" ++ String.ofList name ++ "'"
  | rulePattern name pattern =>
    "Rule pattern for '" ++ String.ofList name ++ "': " ++ String.ofList pattern
  | cutOut count name bytes =>
    "Removed " ++ toString count ++ " block(s) of '" ++ String.ofList name ++ "' (" ++
      toString bytes ++ " bytes)"
  | matched name count =>
    "Class '" ++ String.ofList name ++ "' matched " ++ toString count ++ " block(s)"
  | collapsed bytesBefore bytesAfter =>
    "Collapsed newlines: " ++ toString bytesBefore ++ " -> " ++ toString bytesAfter ++ " bytes"
  | leftUntouched path => "Dry run, leaving " ++ String.ofList path ++ " untouched"
  | writing chars path => "Writing " ++ toString chars ++ " characters to " ++ String.ofList path
  | finished removed total =>
    "Prune complete. Removed " ++ toString removed ++ " of " ++ toString total ++ " classes"
  | summarizing removed => "Printing summary for " ++ toString removed ++ " removed classes"

/-- An event as a line of a log. -/
def line (event : Event) : String := event.level.name ++ " " ++ event.message

end Event

end RulePruner
