import RulePruner.Cutting

/-!
# What a cutting cuts

`Cutting.Cuts` says between which texts a cutting takes a block out. The blocks of `Cutting.of`
are found by the recogniser at the places where they stand (`Cutting.cuts_of`), every place where
the recogniser finds a block lies inside one that is cut (`Cutting.exists_cuts_of`), and the spans
are their byte ranges (`Cutting.mem_spans_iff`). What remains is described one character or one
block at a time.
-/

namespace RulePruner.Cutting

/-- The cutting takes out `block`, which stands between `before` and `after`. -/
def Cuts (cutting : Cutting) (before block after : Text) : Prop :=
  ∃ earlier kept later, cutting.pieces = earlier ++ ⟨kept, block⟩ :: later ∧
    before = text ⟨earlier, kept⟩ ∧ after = text ⟨later, cutting.rest⟩

@[simp] theorem text_cons (piece : Piece) (pieces : List Piece) (rest : Text) :
    text ⟨piece :: pieces, rest⟩ = piece.kept ++ (piece.block ++ text ⟨pieces, rest⟩) := by
  simp [text]

theorem not_cuts_nil {rest before block after : Text} : ¬ Cuts ⟨[], rest⟩ before block after := by
  intro cuts
  rcases cuts with ⟨earlier, kept, later, pieces, -⟩
  simp at pieces

theorem cuts_cons_iff {piece : Piece} {pieces : List Piece} {rest before block after : Text} :
    Cuts ⟨piece :: pieces, rest⟩ before block after ↔
      (before = piece.kept ∧ block = piece.block ∧ after = text ⟨pieces, rest⟩) ∨
        ∃ front, before = piece.kept ++ (piece.block ++ front) ∧
          Cuts ⟨pieces, rest⟩ front block after := by
  constructor
  · intro cuts
    rcases cuts with ⟨earlier, kept, later, same, rfl, rfl⟩
    cases earlier with
    | nil =>
      obtain ⟨rfl, rfl⟩ := List.cons_eq_cons.mp same
      exact Or.inl ⟨rfl, rfl, rfl⟩
    | cons first earlier =>
      obtain ⟨rfl, rfl⟩ := List.cons_eq_cons.mp same
      exact Or.inr ⟨_, text_cons _ _ _, earlier, kept, later, rfl, rfl, rfl⟩
  · rintro (⟨rfl, rfl, rfl⟩ | ⟨front, rfl, earlier, kept, later, same, rfl, rfl⟩)
    · exact ⟨[], piece.kept, pieces, rfl, rfl, rfl⟩
    · obtain rfl : pieces = _ := same
      exact ⟨piece :: earlier, kept, later, rfl, (text_cons _ _ _).symm, rfl⟩

theorem cuts_keep_iff {c : Char} {cutting : Cutting} {before block after : Text} :
    Cuts (keep c cutting) before block after ↔
      ∃ front, before = c :: front ∧ Cuts cutting front block after := by
  obtain ⟨pieces, rest⟩ := cutting
  cases pieces with
  | nil =>
    constructor
    · intro cuts
      exact absurd cuts not_cuts_nil
    · intro found
      rcases found with ⟨front, -, cuts⟩
      exact absurd cuts not_cuts_nil
  | cons piece pieces =>
    simp only [keep, cuts_cons_iff]
    constructor
    · intro found
      rcases found with ⟨rfl, rfl, rfl⟩ | ⟨front, rfl, cuts⟩
      · exact ⟨piece.kept, rfl, Or.inl ⟨rfl, rfl, rfl⟩⟩
      · exact ⟨_, rfl, Or.inr ⟨front, rfl, cuts⟩⟩
    · rintro ⟨front, rfl, ⟨rfl, rfl, rfl⟩ | ⟨front, rfl, cuts⟩⟩
      · exact Or.inl ⟨rfl, rfl, rfl⟩
      · exact Or.inr ⟨front, rfl, cuts⟩

theorem cuts_cut_iff {first : Text} {cutting : Cutting} {before block after : Text} :
    Cuts (cut first cutting) before block after ↔
      (before = [] ∧ block = first ∧ after = cutting.text) ∨
        ∃ front, before = first ++ front ∧ Cuts cutting front block after :=
  cuts_cons_iff

/-- Of two blocks that a cutting takes out, the first ends before the second starts. -/
theorem Cuts.disjoint {cutting : Cutting} {before block after before' block' after' : Text}
    (first : Cuts cutting before block after) (second : Cuts cutting before' block' after')
    (earlier : before.length < before'.length) :
    before.length + block.length ≤ before'.length := by
  obtain ⟨pieces, rest⟩ := cutting
  induction pieces generalizing before before' with
  | nil => exact absurd first not_cuts_nil
  | cons piece pieces ih =>
    rcases cuts_cons_iff.mp first with ⟨rfl, rfl, rfl⟩ | ⟨front, rfl, cuts⟩
    · rcases cuts_cons_iff.mp second with ⟨rfl, -, -⟩ | ⟨front, rfl, -⟩
      · omega
      · simp only [List.length_append]
        omega
    · rcases cuts_cons_iff.mp second with ⟨rfl, -, -⟩ | ⟨front', rfl, cuts'⟩
      · simp only [List.length_append] at earlier
        omega
      · simp only [List.length_append] at earlier ⊢
        have := ih (by omega) cuts cuts'
        omega

theorem mem_spansFrom_iff {offset : Nat} {pieces : List Piece} {span : Span} (rest : Text) :
    span ∈ spansFrom offset pieces ↔
      ∃ before block after, Cuts ⟨pieces, rest⟩ before block after ∧
        span = ⟨offset + Text.byteSize before, offset + Text.byteSize (before ++ block)⟩ := by
  induction pieces generalizing offset with
  | nil =>
    constructor
    · intro member
      simp [spansFrom] at member
    · intro found
      rcases found with ⟨before, block, after, cuts, -⟩
      exact absurd cuts not_cuts_nil
  | cons piece pieces ih =>
    simp only [spansFrom, List.mem_cons, ih, cuts_cons_iff]
    constructor
    · intro member
      rcases member with rfl | ⟨before, block, after, cuts, rfl⟩
      · exact ⟨piece.kept, piece.block, _, Or.inl ⟨rfl, rfl, rfl⟩, by simp [Nat.add_assoc]⟩
      · exact ⟨_, block, after, Or.inr ⟨before, rfl, cuts⟩, by simp [Nat.add_assoc]⟩
    · rintro ⟨before, block, after, ⟨rfl, rfl, rfl⟩ | ⟨front, rfl, cuts⟩, rfl⟩
      · exact Or.inl (by simp [Nat.add_assoc])
      · exact Or.inr ⟨front, block, after, cuts, by simp [Nat.add_assoc]⟩

/-- The spans of a cutting are the byte ranges of the blocks that it takes out. -/
theorem mem_spans_iff {cutting : Cutting} {span : Span} :
    span ∈ cutting.spans ↔
      ∃ before block after, Cuts cutting before block after ∧
        span = ⟨Text.byteSize before, Text.byteSize (before ++ block)⟩ := by
  unfold spans
  rw [mem_spansFrom_iff cutting.rest]
  simp only [Nat.zero_add]

section Recogniser

variable {length? : Text → Option Nat}

/-- Cutting is decided at the first character, with the blocks given as texts. -/
theorem of_split_induction (measures : Measures length?) {motive : Text → Cutting → Prop}
    (nil : motive [] ⟨[], []⟩)
    (keep : ∀ c rest, length? (c :: rest) = none → motive rest (of length? rest) →
      motive (c :: rest) (keep c (of length? rest)))
    (cut : ∀ block rest, length? (block ++ rest) = some block.length →
      motive rest (of length? rest) → motive (block ++ rest) (cut block (of length? rest)))
    (t : Text) : motive t (of length? t) := by
  refine of_induction measures nil keep ?_ t
  intro t n found after
  have inside := (measures t n found).2
  have whole := cut (t.take n) (t.drop n)
  rw [List.take_append_drop, List.length_take_of_le inside] at whole
  exact whole found after

theorem of_append (measures : Measures length?) {block rest : Text}
    (found : length? (block ++ rest) = some block.length) :
    of length? (block ++ rest) = cut block (of length? rest) := by
  rw [of_eq_cut found (measures _ _ found).1 (measures _ _ found).2, List.take_left, List.drop_left]

/-- A block is cut at a place where the recogniser finds it. -/
theorem cuts_of (measures : Measures length?) {t before block after : Text} :
    Cuts (of length? t) before block after →
      t = before ++ block ++ after ∧ length? (block ++ after) = some block.length := by
  apply of_split_induction measures (motive := fun t cutting => ∀ {before block after},
    Cuts cutting before block after →
      t = before ++ block ++ after ∧ length? (block ++ after) = some block.length)
  · intro before block after cuts
    exact absurd cuts not_cuts_nil
  · intro c rest _ ih before block after cuts
    obtain ⟨front, rfl, later⟩ := cuts_keep_iff.mp cuts
    obtain ⟨rfl, found⟩ := ih later
    exact ⟨rfl, found⟩
  · intro first rest found ih before block after cuts
    rcases cuts_cut_iff.mp cuts with ⟨rfl, rfl, rfl⟩ | ⟨front, rfl, later⟩
    · rw [text_of measures]
      exact ⟨rfl, found⟩
    · obtain ⟨rfl, here⟩ := ih later
      exact ⟨by simp, here⟩

/-- A place where the recogniser finds a block lies inside a block that is cut. -/
theorem exists_cuts_of (measures : Measures length?) {t front u : Text} {n : Nat} :
    t = front ++ u → length? u = some n →
      ∃ before block after, Cuts (of length? t) before block after ∧
        before.length ≤ front.length ∧ front.length < before.length + block.length := by
  apply of_split_induction measures (motive := fun t cutting => ∀ {front}, t = front ++ u →
    length? u = some n → ∃ before block after, Cuts cutting before block after ∧
      before.length ≤ front.length ∧ front.length < before.length + block.length)
  · intro front split found
    obtain ⟨-, rfl⟩ := List.append_eq_nil_iff.mp split.symm
    have := measures _ _ found
    simp only [List.length_nil] at this
    omega
  · intro c rest missing ih front split found
    cases front with
    | nil =>
      rw [List.nil_append] at split
      rw [split, found] at missing
      simp at missing
    | cons d front =>
      obtain ⟨rfl, rfl⟩ := List.cons_eq_cons.mp split
      obtain ⟨before, block, after, cuts, low, high⟩ := ih rfl found
      refine ⟨c :: before, block, after, cuts_keep_iff.mpr ⟨before, rfl, cuts⟩, ?_, ?_⟩
      all_goals
        simp only [List.length_cons]
        omega
  · intro first rest here ih front split found
    by_cases inside : front.length < first.length
    · exact ⟨[], first, _, cuts_cut_iff.mpr (Or.inl ⟨rfl, rfl, rfl⟩), by simp,
        by simpa using inside⟩
    · obtain ⟨behind, rfl⟩ : first <+: front :=
        List.prefix_of_prefix_length_le ⟨rest, split⟩ ⟨u, rfl⟩ (by omega)
      rw [List.append_assoc] at split
      obtain ⟨before, block, after, cuts, low, high⟩ := ih (List.append_cancel_left split) found
      refine ⟨first ++ before, block, after,
        cuts_cut_iff.mpr (Or.inr ⟨before, rfl, cuts⟩), ?_, ?_⟩
      all_goals
        simp only [List.length_append]
        omega

/-- Nothing is cut just if the recogniser finds no block anywhere. -/
theorem pieces_of_eq_nil_iff (measures : Measures length?) {t : Text} :
    (of length? t).pieces = [] ↔ ∀ front u, t = front ++ u → length? u = none := by
  constructor
  · intro empty front u split
    rw [Option.eq_none_iff_forall_ne_some]
    intro n found
    obtain ⟨before, block, after, ⟨earlier, kept, later, pieces, -⟩, -⟩ :=
      exists_cuts_of measures split found
    rw [empty] at pieces
    simp at pieces
  · intro missing
    cases pieces : (of length? t).pieces with
    | nil => rfl
    | cons piece later =>
      have cuts : Cuts (of length? t) piece.kept piece.block _ :=
        ⟨[], piece.kept, later, pieces, rfl, rfl⟩
      obtain ⟨split, found⟩ := cuts_of measures cuts
      rw [List.append_assoc] at split
      rw [missing _ _ split] at found
      simp at found

theorem remaining_of_cons {c : Char} {rest : Text} (missing : length? (c :: rest) = none) :
    (of length? (c :: rest)).remaining = c :: (of length? rest).remaining := by
  rw [of_cons_of_none missing, remaining_keep]

theorem remaining_of_append (measures : Measures length?) {block rest : Text}
    (found : length? (block ++ rest) = some block.length) :
    (of length? (block ++ rest)).remaining = (of length? rest).remaining := by
  rw [of_append measures found, remaining_cut]

theorem remaining_of_pieces_nil {cutting : Cutting} (empty : cutting.pieces = []) :
    cutting.remaining = cutting.text := by
  simp [remaining, text, empty]

end Recogniser

end RulePruner.Cutting
