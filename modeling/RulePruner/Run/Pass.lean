import RulePruner.Log
import RulePruner.Report
import RulePruner.Sink

/-!
The pass through a class list: the listed classes are removed one after the other, each from what
its predecessors left, and a line of progress is written for each class that had rules.
-/

namespace RulePruner

/-- What a run has written to its sink and told its log. -/
structure Trace where
  sink : Sink
  events : Array Event := #[]

/-- Tells the log of events. -/
def Trace.tell (trace : Trace) (events : List Event) : Trace :=
  { trace with events := trace.events ++ events.toArray }

/-- The state of a run while it goes through the class list. -/
structure Pass where
  /-- What remains of the stylesheet. -/
  css : Text
  /-- The classes that had rules so far. -/
  removed : List Text
  trace : Trace

namespace Pass

/-- Tells the log of events. -/
def tell (pass : Pass) (events : List Event) : Pass :=
  { pass with trace := pass.trace.tell events }

/-- Removes one class. Its progress line is written before the class counts as removed. -/
def handle (strategy : Strategy) (name : Text) (pass : Pass) : Pass × Option Failure :=
  let searched := pass.tell (.checking name :: Log.search strategy name)
  match Rule.remove strategy name pass.css with
  | .error failure => (searched, some failure)
  | .ok none => (searched, none)
  | .ok (some removal) =>
    let found := searched.tell (Log.removed name removal ++ [.matched name removal.count])
    match found.trace.sink.writeAll [Report.removing name] with
    | (sink, some fault) =>
      ({ found with trace := { found.trace with sink := sink } }, some (.unreported fault))
    | (sink, none) =>
      ({ css := removal.css
         removed := found.removed ++ [name]
         trace := { found.trace with sink := sink } }, none)

/-- Removes classes one after the other, up to the first failure. -/
def handleAll (strategy : Strategy) : List Text → Pass → Pass × Option Failure
  | [], pass => (pass, none)
  | name :: names, pass =>
    match pass.handle strategy name with
    | (after, none) => handleAll strategy names after
    | (after, some failure) => (after, some failure)

end Pass

end RulePruner
