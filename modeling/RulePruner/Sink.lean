import RulePruner.Fault
import RulePruner.Text.Encoding

/-!
Sinks: writers that may take only so many bytes and may refuse to be flushed, each with a fault of
its own. A sink that is full keeps the bytes that still fit. A print goes out piece by piece and
stops at the first refusal.
-/

namespace RulePruner

/-- A writer and what it has taken so far. -/
structure Sink where
  /-- The number of bytes it takes in all, if there is a limit. -/
  limit : Option Nat := none
  /-- Why it takes no more than that. -/
  refusal : Fault := .writerFull
  /-- Whether it refuses to be flushed. -/
  flushFails : Bool := false
  /-- Why it refuses to be flushed, if it does. -/
  flushRefusal : Fault := .flushFailed
  /-- The bytes taken. -/
  taken : Bytes := []
  /-- How many bytes it had taken at each flush that was asked for. -/
  flushes : List Nat := []
  deriving DecidableEq, Repr

namespace Sink

/-- Writes bytes, of which a limited sink takes only those that fit. -/
def write (bytes : Bytes) (sink : Sink) : Sink × Option Fault :=
  match sink.limit with
  | none => ({ sink with taken := sink.taken ++ bytes }, none)
  | some limit =>
    let room := limit - sink.taken.length
    ({ sink with taken := sink.taken ++ bytes.take room },
      if bytes.length ≤ room then none else some sink.refusal)

/-- Writes the pieces of a print one after the other, up to the first refusal. -/
def writeAll : List Text → Sink → Sink × Option Fault
  | [], sink => (sink, none)
  | piece :: pieces, sink =>
    match sink.write (Text.encode piece) with
    | (after, none) => writeAll pieces after
    | (after, some fault) => (after, some fault)

/-- Asks for a flush. -/
def flush (sink : Sink) : Sink × Option Fault :=
  ({ sink with flushes := sink.flushes ++ [sink.taken.length] },
    if sink.flushFails then some sink.flushRefusal else none)

/-- Writes the pieces of a print and flushes once if all are taken. -/
def print (pieces : List Text) (sink : Sink) : Sink × Option Fault :=
  match sink.writeAll pieces with
  | (after, none) => after.flush
  | (after, some fault) => (after, some fault)

end Sink

end RulePruner
