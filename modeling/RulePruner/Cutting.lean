import RulePruner.Text.Encoding

/-!
Cutting blocks out of a text. A cutting splits a text into kept stretches and blocks, in order;
what remains, the number of blocks and the byte range of each block are read off it. `Cutting.of`
cuts at the leftmost place where a given recogniser finds a block, goes on after that block, and
so finds blocks that do not overlap.
-/

namespace RulePruner

/-- A block together with the text kept before it. -/
structure Piece where
  kept : Text
  block : Text
  deriving DecidableEq, Repr

/-- A text split into kept stretches and blocks. -/
structure Cutting where
  /-- The blocks in order, each with the text kept between it and the block before. -/
  pieces : List Piece
  /-- The text after the last block. -/
  rest : Text
  deriving DecidableEq, Repr

/-- A range of byte offsets, the end not included. -/
structure Span where
  start : Nat
  stop : Nat
  deriving DecidableEq, Repr

namespace Cutting

/-- The text that was cut. -/
def text (cutting : Cutting) : Text :=
  cutting.pieces.flatMap (fun piece => piece.kept ++ piece.block) ++ cutting.rest

/-- The text without its blocks. -/
def remaining (cutting : Cutting) : Text :=
  cutting.pieces.flatMap Piece.kept ++ cutting.rest

/-- The number of blocks. -/
def count (cutting : Cutting) : Nat := cutting.pieces.length

/-- The number of bytes in all blocks together. -/
def blockBytes (cutting : Cutting) : Nat :=
  Text.byteSize (cutting.pieces.flatMap Piece.block)

/-- The byte ranges of the blocks of `pieces`, which start at the byte offset `offset`. -/
def spansFrom (offset : Nat) : List Piece → List Span
  | [] => []
  | piece :: pieces =>
    let start := offset + Text.byteSize piece.kept
    let stop := start + Text.byteSize piece.block
    ⟨start, stop⟩ :: spansFrom stop pieces

/-- The byte ranges of the blocks in the text. -/
def spans (cutting : Cutting) : List Span := spansFrom 0 cutting.pieces

/-- Cuts a text at the leftmost place where `length?` gives a block its length, and again after
that block, until no block is left. -/
def of (length? : Text → Option Nat) (t : Text) : Cutting := go [] [] t
where
  /-- Reads on with the pieces found and the text kept since the last one, both in reverse. -/
  go (pieces : List Piece) (kept : Text) (t : Text) : Cutting :=
    match t with
    | [] => ⟨pieces.reverse, kept.reverse⟩
    | c :: rest =>
      match length? (c :: rest) with
      | some (n + 1) => go (⟨kept.reverse, c :: rest.take n⟩ :: pieces) [] (rest.drop n)
      | _ => go pieces (c :: kept) rest
  termination_by t.length
  decreasing_by all_goals simp only [List.length_drop, List.length_cons]; omega

/-- Puts a character in front of a cutting, to be kept. -/
def keep (c : Char) : Cutting → Cutting
  | ⟨[], rest⟩ => ⟨[], c :: rest⟩
  | ⟨piece :: pieces, rest⟩ => ⟨⟨c :: piece.kept, piece.block⟩ :: pieces, rest⟩

/-- Puts a block in front of a cutting. -/
def cut (block : Text) (cutting : Cutting) : Cutting :=
  ⟨⟨[], block⟩ :: cutting.pieces, cutting.rest⟩

/-- Puts the pieces and the kept text of an unfinished search in front of a cutting. -/
private def resume (pieces : List Piece) (kept : Text) : Cutting → Cutting
  | ⟨[], rest⟩ => ⟨pieces, kept ++ rest⟩
  | ⟨piece :: later, rest⟩ => ⟨pieces ++ ⟨kept ++ piece.kept, piece.block⟩ :: later, rest⟩

private theorem go_eq_resume (length? : Text → Option Nat) (pieces : List Piece) (kept t : Text) :
    of.go length? pieces kept t = resume pieces.reverse kept.reverse (of length? t) := by
  unfold of
  induction size : t.length using Nat.strongRecOn generalizing t pieces kept with
  | ind size ih =>
  subst size
  cases t with
  | nil => simp [of.go, resume]
  | cons c rest =>
    rw [of.go, of.go]
    split
    · rename_i n found
      have shorter : (rest.drop n).length < (c :: rest).length := by
        simp only [List.length_drop, List.length_cons]
        omega
      rw [ih _ shorter _ _ _ rfl, ih _ shorter [_] _ _ rfl]
      generalize of.go length? [] [] (rest.drop n) = cutting
      obtain ⟨_ | ⟨piece, later⟩, last⟩ := cutting <;> simp [resume]
    · rw [ih _ (by simp) pieces (c :: kept) rest rfl, ih _ (by simp) [] [c] rest rfl]
      generalize of.go length? [] [] rest = cutting
      obtain ⟨_ | ⟨piece, later⟩, last⟩ := cutting <;> simp [resume]

@[simp] theorem of_nil (length? : Text → Option Nat) : of length? [] = ⟨[], []⟩ := by
  simp [of, of.go]

/-- Where no block starts, the first character is kept. -/
theorem of_cons_of_none {length? : Text → Option Nat} {c : Char} {rest : Text}
    (missing : length? (c :: rest) = none) :
    of length? (c :: rest) = keep c (of length? rest) := by
  have step : of length? (c :: rest) = of.go length? [] [c] rest := by
    simp [of, of.go, missing]
  rw [step, go_eq_resume]
  generalize of length? rest = cutting
  obtain ⟨_ | ⟨piece, later⟩, last⟩ := cutting <;> simp [resume, keep]

/-- Where a block starts, it is cut and the search goes on after it. -/
theorem of_eq_cut {length? : Text → Option Nat} {n : Nat} {t : Text}
    (found : length? t = some n) (positive : 0 < n) (inside : n ≤ t.length) :
    of length? t = cut (t.take n) (of length? (t.drop n)) := by
  obtain ⟨n, rfl⟩ : ∃ m, n = m + 1 := ⟨n - 1, by omega⟩
  cases t with
  | nil => simp at inside
  | cons c rest =>
    have step : of length? (c :: rest) =
        of.go length? [⟨[], c :: rest.take n⟩] [] (rest.drop n) := by
      rw [of, of.go, found]
      simp
    rw [step, go_eq_resume]
    simp only [List.take_succ_cons, List.drop_succ_cons]
    generalize of length? (rest.drop n) = cutting
    obtain ⟨_ | ⟨piece, later⟩, last⟩ := cutting <;> simp [resume, cut]

@[simp] theorem text_keep (c : Char) (cutting : Cutting) :
    (keep c cutting).text = c :: cutting.text := by
  obtain ⟨_ | ⟨piece, later⟩, last⟩ := cutting <;> simp [keep, text]

@[simp] theorem text_cut (block : Text) (cutting : Cutting) :
    (cut block cutting).text = block ++ cutting.text := by
  simp [cut, text]

@[simp] theorem remaining_keep (c : Char) (cutting : Cutting) :
    (keep c cutting).remaining = c :: cutting.remaining := by
  obtain ⟨_ | ⟨piece, later⟩, last⟩ := cutting <;> simp [keep, remaining]

@[simp] theorem remaining_cut (block : Text) (cutting : Cutting) :
    (cut block cutting).remaining = cutting.remaining := by
  simp [cut, remaining]

@[simp] theorem count_keep (c : Char) (cutting : Cutting) :
    (keep c cutting).count = cutting.count := by
  obtain ⟨_ | ⟨piece, later⟩, last⟩ := cutting <;> simp [keep, count]

@[simp] theorem count_cut (block : Text) (cutting : Cutting) :
    (cut block cutting).count = cutting.count + 1 := by
  simp [cut, count]

/-- A recogniser is sound for cutting if the blocks it finds are not empty and lie within the
text. -/
def Measures (length? : Text → Option Nat) : Prop :=
  ∀ t n, length? t = some n → 0 < n ∧ n ≤ t.length

/-- Cutting is decided at the first character: a block is cut there, or the character is kept. -/
theorem of_induction {length? : Text → Option Nat} (measures : Measures length?)
    {motive : Text → Cutting → Prop} (nil : motive [] ⟨[], []⟩)
    (keep : ∀ c rest, length? (c :: rest) = none → motive rest (of length? rest) →
      motive (c :: rest) (keep c (of length? rest)))
    (cut : ∀ t n, length? t = some n → motive (t.drop n) (of length? (t.drop n)) →
      motive t (cut (t.take n) (of length? (t.drop n))))
    (t : Text) : motive t (of length? t) := by
  induction size : t.length using Nat.strongRecOn generalizing t with
  | ind size ih =>
    subst size
    cases found : length? t with
    | some n =>
      obtain ⟨positive, inside⟩ := measures t n found
      rw [of_eq_cut found positive inside]
      apply cut t n found
      apply ih _ _ _ rfl
      rw [List.length_drop]
      omega
    | none =>
      cases t with
      | nil => rwa [of_nil]
      | cons c rest =>
        rw [of_cons_of_none found]
        exact keep c rest found (ih _ (by simp) _ rfl)

/-- A cutting loses nothing of the text. -/
theorem text_of {length? : Text → Option Nat} (measures : Measures length?) (t : Text) :
    (of length? t).text = t := by
  apply of_induction measures (motive := fun t cutting => cutting.text = t)
  · rfl
  · intro c rest _ same
    rw [text_keep, same]
  · intro t n _ same
    rw [text_cut, same, List.take_append_drop]

end Cutting

end RulePruner
