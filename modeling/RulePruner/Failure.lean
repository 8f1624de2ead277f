import RulePruner.Fault
import RulePruner.Rule.Pattern

/-!
Failures: why a run stops, with the fault behind it where there is one.
-/

namespace RulePruner

/-- The reason why a run stops. -/
inductive Failure where
  /-- A file cannot be read. -/
  | unreadable (path : Text) (fault : Fault)
  /-- A file cannot be written. -/
  | unwritable (path : Text) (fault : Fault)
  /-- The pattern of a class is too large. -/
  | oversized (name : Text)
  /-- The writer of the progress lines refuses one. -/
  | unreported (fault : Fault)
  deriving DecidableEq, Repr

/-- The wording of a failure: what failed, then its cause where it has one. -/
def Failure.chain : Failure → List String
  | unreadable path fault => ["Failed to read " ++ String.ofList path, fault.message]
  | unwritable path fault => ["Failed to write " ++ String.ofList path, fault.message]
  | oversized name =>
    ["Failed to build rule for class '" ++ String.ofList name ++ "'",
     "Compiled regex exceeds size limit of " ++ toString Pattern.sizeLimit ++ " bytes."]
  | unreported fault => [fault.message]

/-- The fault behind a failure; an oversized pattern has none. -/
def Failure.fault? : Failure → Option Fault
  | unreadable _ fault => some fault
  | unwritable _ fault => some fault
  | oversized _ => none
  | unreported fault => some fault

end RulePruner
