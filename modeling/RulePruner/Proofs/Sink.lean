import RulePruner.Proofs.Run.Files
import RulePruner.Sink

/-!
# What a sink takes

A print goes out piece by piece, but how it is cut into pieces does not matter: a sink that was not
overfull before holds as much of what it had and of the whole print as fits within its limit, and it
refuses just if something is left over (`Sink.writeAll_eq`). Only a print that fits is flushed, once
and at its end (`Sink.print_eq`).
-/

namespace RulePruner.Sink

open FileTree (Fits clip)

variable {sink : Sink}

theorem write_eq (fits : Fits sink.limit sink.taken) (bytes : Bytes) :
    sink.write bytes = ({ sink with taken := clip sink.limit (sink.taken ++ bytes) },
      if Fits sink.limit (sink.taken ++ bytes) then none else some sink.refusal) := by
  unfold write
  cases limited : sink.limit with
  | none => simp [clip, Fits]
  | some limit =>
    have room : sink.taken.length ≤ limit := fits limit limited
    have taken : (sink.taken ++ bytes).take limit =
        sink.taken ++ bytes.take (limit - sink.taken.length) := by
      rw [List.take_append, List.take_of_length_le room]
    have enough : bytes.length ≤ limit - sink.taken.length ↔
        (sink.taken ++ bytes).length ≤ limit := by
      rw [List.length_append]
      omega
    simp [clip, Fits, taken, enough]

/-- A print is taken up to the limit, wherever its pieces end. -/
theorem writeAll_eq (fits : Fits sink.limit sink.taken) (pieces : List Text) :
    sink.writeAll pieces =
      ({ sink with taken := clip sink.limit (sink.taken ++ pieces.flatMap Text.encode) },
        if Fits sink.limit (sink.taken ++ pieces.flatMap Text.encode) then none
        else some sink.refusal) := by
  induction pieces generalizing sink with
  | nil => simp [writeAll, fits, fits.clip_eq]
  | cons piece pieces ih =>
    rw [writeAll, write_eq fits, List.flatMap_cons, ← List.append_assoc]
    by_cases more : Fits sink.limit (sink.taken ++ Text.encode piece)
    · rw [if_pos more, more.clip_eq]
      exact ih more
    · -- The print stops here, and the pieces after this one would not have fitted either.
      have stuck : ¬ Fits sink.limit
          (sink.taken ++ Text.encode piece ++ pieces.flatMap Text.encode) := mt Fits.of_append more
      rw [if_neg more, if_neg stuck, FileTree.clip_append_of_not_fits more]

/-- A print that does not fit ends without a flush, and one that fits ends with one. -/
theorem print_eq (fits : Fits sink.limit sink.taken) (pieces : List Text) :
    let taken := sink.taken ++ pieces.flatMap Text.encode
    sink.print pieces =
      if Fits sink.limit taken then
        ({ sink with taken := taken, flushes := sink.flushes ++ [taken.length] },
          if sink.flushFails then some sink.flushRefusal else none)
      else ({ sink with taken := clip sink.limit taken }, some sink.refusal) := by
  intro taken
  rw [print, writeAll_eq fits]
  by_cases whole : Fits sink.limit taken
  · rw [if_pos whole, if_pos whole, whole.clip_eq]
    rfl
  · rw [if_neg whole, if_neg whole]

/-- A sink without a limit takes everything. -/
theorem writeAll_unlimited (pieces : List Text) (unlimited : sink.limit = none) :
    (sink.writeAll pieces).2 = none ∧ (sink.writeAll pieces).1.limit = none := by
  have fits (bytes : Bytes) : Fits sink.limit bytes := by simp [Fits, unlimited]
  rw [writeAll_eq (fits _), if_pos (fits _)]
  exact ⟨rfl, unlimited⟩

end RulePruner.Sink
