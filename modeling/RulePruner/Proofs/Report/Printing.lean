import RulePruner.Proofs.Sink
import RulePruner.Report

/-!
# Prints that are cut short

A print goes to a sink that takes only so many bytes. Wherever its pieces are cut, the sink ends up
with as much of the whole print as fits; the print succeeds if that is everything, and otherwise
stops with the sink's own refusal. It is flushed once, after its last byte, or not at all. The main
statement is `Report.Print.deliver_limited`.
-/

namespace RulePruner.Report

open FileTree (Fits clip)

/-- What there is to print. -/
inductive Print where
  /-- The progress line of a class. -/
  | removing (name : Text)
  | summary (colored : Bool) (outcome : Outcome)
  | dryRunNote (colored : Bool) (path : Text)
  | json (outcome : Outcome)

namespace Print

/-- The pieces of a print. -/
def pieces : Print → List Text
  | removing name => [Report.removing name]
  | summary colored outcome => Report.summary colored outcome
  | dryRunNote colored path => Report.dryRunNote colored path
  | json outcome => jsonReport outcome

/-- Whether a print ends with a flush, which a progress line does not. -/
def isFlushed : Print → Bool
  | removing _ => false
  | summary .. | dryRunNote .. | json _ => true

/-- Writes the pieces into which a print is cut, and flushes if the print ends with that. -/
def deliver (print : Print) (pieces : List Text) (sink : Sink) : Sink × Option Fault :=
  if print.isFlushed then sink.print pieces else sink.writeAll pieces

/-- The bytes that a print leaves in a sink without a limit. -/
def bytes (print : Print) : Bytes := (print.deliver print.pieces {}).1.taken

variable {print : Print} {pieces : List Text} {sink : Sink} {limit : Nat}

theorem flatMap_encode (pieces : List Text) :
    pieces.flatMap Text.encode = Text.encode pieces.flatten := by
  rw [List.flatten_eq_flatMap, Text.encode, List.flatMap_assoc]
  rfl

theorem fits_some {bytes : Bytes} : Fits (some limit) bytes ↔ bytes.length ≤ limit := by
  simp [Fits]

/-- A print leaves all its pieces in a sink without a limit. -/
theorem bytes_eq (print : Print) : print.bytes = Text.encode print.pieces.flatten := by
  have fits (bytes : Bytes) : Fits ({} : Sink).limit bytes := by simp [Fits]
  unfold bytes deliver
  split
  · rw [Sink.print_eq (fits _), if_pos (fits _)]
    exact flatMap_encode _
  · rw [Sink.writeAll_eq (fits _)]
    exact flatMap_encode _

/-- What a print leaves in a sink that was empty before: all of it, with a flush if it ends with
one, or as much of it as fits. -/
theorem deliver_eq (whole : pieces.flatten = print.pieces.flatten) (empty : sink.taken = []) :
    print.deliver pieces sink =
      if Fits sink.limit print.bytes then
        ({ sink with
            taken := print.bytes
            flushes := sink.flushes ++ if print.isFlushed then [print.bytes.length] else [] },
          if print.isFlushed && sink.flushFails then some sink.flushRefusal else none)
      else ({ sink with taken := clip sink.limit print.bytes }, some sink.refusal) := by
  have fits : Fits sink.limit sink.taken := empty ▸ FileTree.fits_nil sink.limit
  have taken : sink.taken ++ pieces.flatMap Text.encode = print.bytes := by
    rw [empty, List.nil_append, bytes_eq, flatMap_encode, whole]
  unfold deliver
  cases print.isFlushed with
  | true =>
    rw [if_pos rfl, Sink.print_eq fits]
    simp only [taken, Bool.true_and, if_true]
  | false =>
    rw [if_neg Bool.false_ne_true, Sink.writeAll_eq fits, taken]
    by_cases enough : Fits sink.limit print.bytes
    · simp [enough, enough.clip_eq]
    · rw [if_neg enough, if_neg enough]

/-- An empty sink takes a print up to its limit, however the print is cut into pieces. If that is
the whole print, it succeeds unless it ends with a flush, which is the only one, and that is
refused; if it is not, the sink has its first bytes, the print stops with the refusal of the sink,
and no flush is asked for. -/
theorem deliver_limited (print : Print) (pieces : List Text)
    (whole : pieces.flatten = print.pieces.flatten) (sink : Sink) (empty : sink.taken = [])
    (limit : Nat) (limited : sink.limit = some limit) :
    let printed := print.deliver pieces sink
    (print.bytes.length ≤ limit →
      printed.1.taken = print.bytes ∧
      printed.1.flushes = sink.flushes ++ (if print.isFlushed then [print.bytes.length] else []) ∧
      printed.2 = if print.isFlushed && sink.flushFails then some sink.flushRefusal else none) ∧
    (limit < print.bytes.length →
      printed.1.taken = print.bytes.take limit ∧ printed.1.flushes = sink.flushes ∧
      printed.2 = some sink.refusal) := by
  intro printed
  have told : printed = _ := deliver_eq whole empty
  have fits : Fits sink.limit print.bytes ↔ print.bytes.length ≤ limit := by
    rw [limited, fits_some]
  constructor
  · intro room
    rw [told, if_pos (fits.mpr room)]
    exact ⟨rfl, rfl, rfl⟩
  · intro exceeds
    rw [told, if_neg (mt fits.mp (Nat.not_le_of_lt exceeds)), limited]
    exact ⟨rfl, rfl, rfl⟩

/-- A coloured note whose mark is cut off within its three bytes where a disk is full, and the same
note on a closed pipe, which takes all of it and refuses to be flushed. -/
theorem deliver_limited_of_split_mark :
    let print := Print.dryRunNote true "a".toList
    let pieces := ["\n".toList, "\x1b[94m".toList, "●".toList, "\x1b[0m".toList, " Dry run: ".toList,
      "a".toList, " was not modified.\n".toList]
    let disk : Sink :=
      { limit := some 7, refusal := .other "No space left on device (os error 28)" }
    let pipe : Sink :=
      { limit := some 43, flushFails := true, flushRefusal := .other "Broken pipe (os error 32)" }
    pieces.flatten = print.pieces.flatten ∧ print.bytes.length = 43 ∧
      (print.deliver pieces disk).1.taken = [10, 27, 91, 57, 52, 109, 226] ∧
      (print.deliver pieces disk).1.flushes = [] ∧
      (print.deliver pieces disk).2 = some (.other "No space left on device (os error 28)") ∧
      (print.deliver pieces pipe).1.taken = print.bytes ∧
      (print.deliver pieces pipe).1.flushes = [43] ∧
      (print.deliver pieces pipe).2 = some (.other "Broken pipe (os error 32)") := by
  intro print pieces disk pipe
  have whole : pieces.flatten = print.pieces.flatten := by decide +kernel
  have size : print.bytes.length = 43 := by decide +kernel
  obtain ⟨-, tooLong⟩ := deliver_limited print pieces whole disk rfl 7 rfl
  obtain ⟨room, -⟩ := deliver_limited print pieces whole pipe rfl 43 rfl
  obtain ⟨cut, flushless, full⟩ := tooLong (by rw [size]; decide)
  obtain ⟨taken, flushed, closed⟩ := room (Nat.le_of_eq size)
  refine ⟨whole, size, cut.trans ?_, flushless, full, taken, flushed.trans ?_, closed⟩
  · decide +kernel
  · rw [size]
    rfl

end Print

end RulePruner.Report
