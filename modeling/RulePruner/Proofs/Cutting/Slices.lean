import RulePruner.Proofs.Cutting
import RulePruner.Proofs.Text.Slice

/-!
# Cuttings by byte offsets

The spans of a cutting tell its blocks and what remains: the slices of the text at the spans are the
blocks (`Cutting.map_slice_spans`), and copying the text around the spans gives what remains
(`Cutting.copyAround_spans`). No offset of the copy lies inside a character, none is behind the one
before it, and the blocks together are no larger than the text.
-/

namespace RulePruner

/-- The number of bytes in all spans together. -/
def Span.bytesIn (spans : List Span) : Nat :=
  spans.foldr (fun span bytes => span.stop - span.start + bytes) 0

namespace Cutting

open Text

/-- Copies what stands before, between and behind spans, from the byte offset `last` on. -/
def copyFrom (css : Text) (last : Nat) : List Span → Except Slip Text
  | [] => behind last css
  | span :: spans => do
    let kept ← slice last span.start css
    let later ← copyFrom css span.stop spans
    .ok (kept ++ later)

/-- Copies what stands around spans. The size of the copy is worked out first. -/
def copyAround (css : Text) (spans : List Span) : Except Slip Text := do
  let _ ← Slip.subtract (byteSize css) (Span.bytesIn spans)
  copyFrom css 0 spans

theorem map_slice_spansFrom (front : Text) (pieces : List Piece) (rest : Text) :
    ((spansFrom (byteSize front) pieces).map fun span =>
      slice span.start span.stop (front ++ text ⟨pieces, rest⟩)) =
        pieces.map fun piece => .ok piece.block := by
  induction pieces generalizing front with
  | nil => rfl
  | cons piece pieces ih =>
    have here := slice_append (front ++ piece.kept) piece.block (text ⟨pieces, rest⟩)
    have later := ih (front ++ piece.kept ++ piece.block)
    simp only [byteSize_append, List.append_assoc] at here later
    simp only [spansFrom, text_cons, List.map_cons, Nat.add_assoc, here, later]

/-- The blocks of a cutting stand in the text at its spans, in order. -/
theorem map_slice_spans (cutting : Cutting) :
    (cutting.spans.map fun span => slice span.start span.stop cutting.text) =
      cutting.pieces.map fun piece => .ok piece.block :=
  map_slice_spansFrom [] cutting.pieces cutting.rest

theorem copyFrom_spansFrom (front : Text) (pieces : List Piece) (rest : Text) :
    copyFrom (front ++ text ⟨pieces, rest⟩) (byteSize front) (spansFrom (byteSize front) pieces) =
      .ok (remaining ⟨pieces, rest⟩) := by
  induction pieces generalizing front with
  | nil => exact behind_append front rest
  | cons piece pieces ih =>
    have here := slice_append front piece.kept (piece.block ++ text ⟨pieces, rest⟩)
    have later := ih (front ++ piece.kept ++ piece.block)
    simp only [byteSize_append, List.append_assoc] at here later
    simp only [spansFrom, text_cons, copyFrom, Nat.add_assoc, here, later, bind, Except.bind]
    simp [remaining]

theorem bytesIn_spansFrom (offset : Nat) (pieces : List Piece) :
    Span.bytesIn (spansFrom offset pieces) = byteSize (pieces.flatMap Piece.block) := by
  induction pieces generalizing offset with
  | nil => rfl
  | cons piece pieces ih =>
    have later := ih (offset + byteSize piece.kept + byteSize piece.block)
    rw [Span.bytesIn] at later
    rw [spansFrom, Span.bytesIn, List.foldr_cons, later, List.flatMap_cons, byteSize_append,
      Nat.add_sub_cancel_left]

/-- The blocks of a text are no larger than the text. -/
theorem blockBytes_le (cutting : Cutting) : cutting.blockBytes ≤ byteSize cutting.text := by
  obtain ⟨pieces, rest⟩ := cutting
  induction pieces with
  | nil => exact Nat.zero_le _
  | cons piece pieces ih =>
    rw [blockBytes] at ih ⊢
    rw [text_cons, List.flatMap_cons, byteSize_append, byteSize_append, byteSize_append]
    simp only at ih ⊢
    omega

/-- Copying a text around the spans of a cutting gives what remains of it. -/
theorem copyAround_spans (cutting : Cutting) :
    copyAround cutting.text cutting.spans = .ok cutting.remaining := by
  have size : Span.bytesIn cutting.spans ≤ byteSize cutting.text := by
    rw [spans, bytesIn_spansFrom]
    exact cutting.blockBytes_le
  simp only [copyAround, Slip.subtract, if_pos size, bind, Except.bind]
  exact copyFrom_spansFrom [] cutting.pieces cutting.rest

end Cutting

end RulePruner
