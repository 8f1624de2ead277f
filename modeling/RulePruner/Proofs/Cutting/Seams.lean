import RulePruner.Proofs.Cutting

/-!
# Seams

A seam is a place in what remains of a text where a block was cut out. A place of the remaining text
comes from a place of the text from where on the same blocks are cut (`Cutting.exists_kept`), and a
stretch of the remaining text that no seam lies in stood in the text as it is
(`Cutting.seam_or_front`).
-/

namespace RulePruner.Cutting

open Text

/-- The byte offsets of the seams that `pieces` leave behind `offset` bytes. -/
def seamsFrom (offset : Nat) : List Piece → List Nat
  | [] => []
  | piece :: pieces =>
    let here := offset + byteSize piece.kept
    here :: seamsFrom here pieces

/-- The byte offsets in what remains of the text at which a block was cut out. -/
def seams (cutting : Cutting) : List Nat := seamsFrom 0 cutting.pieces

theorem seamsFrom_add (offset more : Nat) (pieces : List Piece) :
    seamsFrom (offset + more) pieces = (seamsFrom more pieces).map (offset + ·) := by
  induction pieces generalizing more with
  | nil => rfl
  | cons piece pieces ih => simp [seamsFrom, Nat.add_assoc, ih]

theorem seams_keep (c : Char) (cutting : Cutting) :
    (keep c cutting).seams = cutting.seams.map (c.utf8Size + ·) := by
  obtain ⟨pieces, rest⟩ := cutting
  cases pieces with
  | nil => rfl
  | cons piece pieces => simp [keep, seams, seamsFrom, seamsFrom_add]

theorem seams_cut (block : Text) (cutting : Cutting) :
    (cut block cutting).seams = 0 :: cutting.seams := by
  simp [cut, seams, seamsFrom]

variable {length? : Text → Option Nat} {t u before p : Text}

/-- Where no block starts, the first character is kept, and all seams lie behind it. -/
theorem pos_of_mem_seams {seam : Nat} (missing : length? t = none)
    (member : seam ∈ (of length? t).seams) : 0 < seam := by
  cases t with
  | nil => simp [seams, seamsFrom] at member
  | cons c t =>
    rw [of_cons_of_none missing, seams_keep] at member
    obtain ⟨later, -, rfl⟩ := List.mem_map.mp member
    exact Nat.add_pos_left c.utf8Size_pos later

/-- What remains behind a place is what remains of the text behind some place of it where no block
starts, and the seams are the same. -/
theorem exists_kept (measures : Measures length?) (more : u ≠ []) :
    (of length? t).remaining = before ++ u →
      ∃ front v, t = front ++ v ∧ length? v = none ∧ (of length? v).remaining = u ∧
        ∀ seam ∈ (of length? v).seams, byteSize before + seam ∈ (of length? t).seams := by
  refine of_split_induction measures (motive := fun t cutting => ∀ {before},
    cutting.remaining = before ++ u →
      ∃ front v, t = front ++ v ∧ length? v = none ∧ (of length? v).remaining = u ∧
        ∀ seam ∈ (of length? v).seams, byteSize before + seam ∈ cutting.seams) ?_ ?_ ?_ t
  · intro before left
    exact absurd (List.append_eq_nil_iff.mp left.symm).2 more
  · intro c rest missing ih before left
    cases before with
    | nil =>
      rw [← of_cons_of_none missing] at left ⊢
      exact ⟨[], c :: rest, rfl, missing, left, by simp⟩
    | cons d before =>
      rw [remaining_keep, List.cons_append] at left
      obtain ⟨rfl, behind⟩ := List.cons_eq_cons.mp left
      obtain ⟨front, v, rfl, missing, left, same⟩ := ih behind
      refine ⟨c :: front, v, rfl, missing, left, fun seam member => ?_⟩
      rw [seams_keep, byteSize_cons, Nat.add_assoc]
      exact List.mem_map_of_mem (same seam member)
  · intro block rest found ih before left
    rw [remaining_cut] at left
    obtain ⟨front, v, rfl, missing, left, same⟩ := ih left
    refine ⟨block ++ front, v, by simp, missing, left, fun seam member => ?_⟩
    rw [seams_cut]
    exact List.mem_cons_of_mem _ (same seam member)

/-- A front of what remains holds a seam before its end, or it is a front of the text. -/
theorem seam_or_front (measures : Measures length?) :
    (of length? t).remaining = p ++ u →
      (∃ seam ∈ (of length? t).seams, seam < byteSize p) ∨
        ∃ w, t = p ++ w ∧ (of length? w).remaining = u := by
  refine of_split_induction measures (motive := fun t cutting => ∀ {p},
    cutting.remaining = p ++ u →
      (∃ seam ∈ cutting.seams, seam < byteSize p) ∨
        ∃ w, t = p ++ w ∧ (of length? w).remaining = u) ?_ ?_ ?_ t
  · intro p left
    obtain ⟨rfl, rfl⟩ := List.append_eq_nil_iff.mp left.symm
    exact Or.inr ⟨[], rfl, by simp [remaining]⟩
  · intro c rest missing ih p left
    cases p with
    | nil =>
      rw [← of_cons_of_none missing] at left
      exact Or.inr ⟨c :: rest, rfl, left⟩
    | cons d p =>
      rw [remaining_keep, List.cons_append] at left
      obtain ⟨rfl, behind⟩ := List.cons_eq_cons.mp left
      rcases ih behind with ⟨seam, member, early⟩ | ⟨w, rfl, leftBehind⟩
      · refine Or.inl ⟨c.utf8Size + seam, ?_, ?_⟩
        · rw [seams_keep]
          exact List.mem_map_of_mem member
        · rw [byteSize_cons]
          omega
      · exact Or.inr ⟨w, rfl, leftBehind⟩
  · intro block rest found ih p left
    cases p with
    | nil =>
      rw [← of_append measures found] at left
      exact Or.inr ⟨block ++ rest, rfl, left⟩
    | cons d p =>
      refine Or.inl ⟨0, by simp [seams_cut], ?_⟩
      rw [byteSize_cons]
      exact Nat.add_pos_left d.utf8Size_pos _

end RulePruner.Cutting
