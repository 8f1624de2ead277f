import RulePruner.Proofs.Cutting.Leftmost

/-!
# Cuttings one behind the other

A text that is kept can be put in front of a cutting, and a cutting can be put in front of another
one. The second one then has its spans moved by the size of the first text.
`Cutting.of_append_of_none` and `Cutting.of_append_of_apart` say where a search cuts a text in this
way: where no block starts in its front, and where no block that starts in its front depends on the
rest.
-/

namespace RulePruner

/-- A span that is moved by a number of bytes. -/
def Span.shift (offset : Nat) (span : Span) : Span := ⟨offset + span.start, offset + span.stop⟩

namespace Cutting

open Text

/-- Puts a text in front of a cutting, to be kept. -/
def keepAll (kept : Text) (cutting : Cutting) : Cutting := kept.foldr keep cutting

/-- Puts a cutting in front of another one. -/
def append (first second : Cutting) : Cutting :=
  first.pieces.foldr (fun piece later => keepAll piece.kept (cut piece.block later))
    (keepAll first.rest second)

theorem keepAll_cons (c : Char) (kept : Text) (cutting : Cutting) :
    keepAll (c :: kept) cutting = keep c (keepAll kept cutting) := rfl

theorem append_keep (c : Char) (first second : Cutting) :
    append (keep c first) second = keep c (append first second) := by
  obtain ⟨pieces, rest⟩ := first
  cases pieces <;> rfl

theorem append_cut (block : Text) (first second : Cutting) :
    append (cut block first) second = cut block (append first second) := rfl

theorem append_cons (piece : Piece) (pieces : List Piece) (rest : Text) (second : Cutting) :
    append ⟨piece :: pieces, rest⟩ second =
      keepAll piece.kept (cut piece.block (append ⟨pieces, rest⟩ second)) := rfl

@[simp] theorem remaining_keepAll (kept : Text) (cutting : Cutting) :
    (keepAll kept cutting).remaining = kept ++ cutting.remaining := by
  induction kept with
  | nil => rfl
  | cons c kept ih => rw [keepAll_cons, remaining_keep, ih, List.cons_append]

@[simp] theorem count_keepAll (kept : Text) (cutting : Cutting) :
    (keepAll kept cutting).count = cutting.count := by
  induction kept with
  | nil => rfl
  | cons c kept ih => rw [keepAll_cons, count_keep, ih]

theorem spansFrom_keepAll (offset : Nat) (kept : Text) (cutting : Cutting) :
    spansFrom offset (keepAll kept cutting).pieces =
      spansFrom (offset + byteSize kept) cutting.pieces := by
  induction kept generalizing offset with
  | nil => rfl
  | cons c kept ih => rw [keepAll_cons, spansFrom_keep, ih, byteSize_cons, Nat.add_assoc]

theorem spansFrom_cut (offset : Nat) (block : Text) (cutting : Cutting) :
    spansFrom offset (cut block cutting).pieces =
      ⟨offset, offset + byteSize block⟩ :: spansFrom (offset + byteSize block) cutting.pieces := rfl

theorem spansFrom_add (offset more : Nat) (pieces : List Piece) :
    spansFrom (offset + more) pieces = (spansFrom more pieces).map (Span.shift offset) := by
  induction pieces generalizing more with
  | nil => rfl
  | cons piece pieces ih => simp [spansFrom, Span.shift, Nat.add_assoc, ih]

theorem remaining_append (first second : Cutting) :
    (first.append second).remaining = first.remaining ++ second.remaining := by
  obtain ⟨pieces, rest⟩ := first
  induction pieces with
  | nil => exact remaining_keepAll rest second
  | cons piece pieces ih =>
    rw [append_cons, remaining_keepAll, remaining_cut, ih]
    simp [remaining]

theorem count_append (first second : Cutting) :
    (first.append second).count = first.count + second.count := by
  obtain ⟨pieces, rest⟩ := first
  induction pieces with
  | nil => exact (count_keepAll rest second).trans (Nat.zero_add _).symm
  | cons piece pieces ih =>
    rw [append_cons, count_keepAll, count_cut, ih]
    simp only [count, List.length_cons]
    omega

theorem spansFrom_append (offset : Nat) (first second : Cutting) :
    spansFrom offset (first.append second).pieces =
      spansFrom offset first.pieces ++ spansFrom (offset + byteSize first.text) second.pieces := by
  obtain ⟨pieces, rest⟩ := first
  induction pieces generalizing offset with
  | nil => exact spansFrom_keepAll offset rest second
  | cons piece pieces ih =>
    rw [append_cons, spansFrom_keepAll, spansFrom_cut, ih, text_cons, byteSize_append,
      byteSize_append, spansFrom, List.cons_append]
    simp only [Nat.add_assoc]

/-- The spans of the second cutting are moved behind the text of the first one. -/
theorem spans_append (first second : Cutting) :
    (first.append second).spans =
      first.spans ++ second.spans.map (Span.shift (byteSize first.text)) := by
  have moved := spansFrom_add (byteSize first.text) 0 second.pieces
  rw [Nat.add_zero] at moved
  rw [spans, spansFrom_append, Nat.zero_add, moved]
  rfl

variable {length? : Text → Option Nat} {Accepted : Text → Prop}

/-- A front in which no block starts is kept. -/
theorem of_append_of_none {kept u : Text}
    (missing : ∀ front rest, kept = front ++ rest → rest ≠ [] → length? (rest ++ u) = none) :
    of length? (kept ++ u) = keepAll kept (of length? u) := by
  induction kept with
  | nil => rfl
  | cons c kept ih =>
    have here : length? (c :: (kept ++ u)) = none := missing [] (c :: kept) rfl (by simp)
    have later := ih fun front rest split => missing (c :: front) rest (congrArg (c :: ·) split)
    rw [List.cons_append, of_cons_of_none here, later, keepAll_cons]

/-- Two texts are cut apart if no block starts in the first one that does not end in it. -/
theorem of_append_of_apart (measures : Measures length?) (recognises : Recognises length? Accepted)
    {t u : Text} : (∀ front rest, t = front ++ rest → rest ≠ [] → length? rest = none →
      length? (rest ++ u) = none) →
    of length? (t ++ u) = (of length? t).append (of length? u) := by
  refine of_split_induction measures (motive := fun t cutting => (∀ front rest, t = front ++ rest →
    rest ≠ [] → length? rest = none → length? (rest ++ u) = none) →
      of length? (t ++ u) = cutting.append (of length? u)) ?_ ?_ ?_ t
  · intro _
    rfl
  · intro c rest missing ih apart
    have here : length? (c :: (rest ++ u)) = none :=
      apart [] (c :: rest) rfl (by simp) missing
    have later := ih fun front behind split => apart (c :: front) behind (congrArg (c :: ·) split)
    rw [List.cons_append, of_cons_of_none here, later, append_keep]
  · intro block rest found ih apart
    have later := ih fun front behind split =>
      apart (block ++ front) behind (by rw [split, List.append_assoc])
    have here := recognises.found (recognises.accepted found) (rest ++ u)
    rw [List.append_assoc, of_append measures here, later, append_cut]

end Cutting

end RulePruner
