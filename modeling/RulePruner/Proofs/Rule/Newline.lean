import RulePruner.Proofs.Rule.Without
import RulePruner.Proofs.Text.Newline

/-!
# Rules and newline runs

Capping the newline runs of a stylesheet neither makes nor breaks a rule of a class whose name holds
no newline (`Rule.occurs_collapse_iff`). As many rules of the class are cut out of the capped
stylesheet as of the stylesheet itself, and what is left is the same once its newline runs are
capped (`Rule.cut_collapse`).
-/

namespace RulePruner

namespace Text

/-- Without its first blanks a text starts with no newline, so the cap starts afresh. -/
theorem dropWhile_capNewlines (room : Nat) (t : Text) :
    (capNewlines room t).dropWhile isBlank = capNewlines 2 (t.dropWhile isBlank) := by
  induction t generalizing room with
  | nil => rfl
  | cons c t ih =>
    by_cases newline : c = '\n'
    · subst newline
      rw [List.dropWhile_cons_of_pos isBlank_newline]
      cases room with
      | zero => exact ih 0
      | succ room => rw [capNewlines_succ_newline, List.dropWhile_cons_of_pos isBlank_newline, ih]
    · rw [capNewlines_other room t newline]
      by_cases blank : isBlank c = true
      · rw [List.dropWhile_cons_of_pos blank, List.dropWhile_cons_of_pos blank, ih]
      · rw [List.dropWhile_cons_of_neg blank, List.dropWhile_cons_of_neg blank,
          capNewlines_other 2 t newline]

/-- A text without newlines starts a capped text just if it starts the text itself. -/
theorem isPrefixOf_capNewlines {name : Text} (plain : '\n' ∉ name) (t : Text) :
    name.isPrefixOf (capNewlines 2 t) = name.isPrefixOf t ∧
      (name.isPrefixOf t → (capNewlines 2 t).drop name.length =
        capNewlines 2 (t.drop name.length)) := by
  induction name generalizing t with
  | nil => simp
  | cons d name ih =>
    rw [List.mem_cons, not_or] at plain
    cases t with
    | nil => simp
    | cons c t =>
      by_cases newline : c = '\n'
      · subst newline
        have other : ('\n' == d) = false := beq_false_of_ne plain.1
        have other' : (d == '\n') = false := beq_false_of_ne (Ne.symm plain.1)
        simp [capNewlines_succ_newline, List.isPrefixOf, other']
      · obtain ⟨front, rest⟩ := ih plain.2 t
        rw [capNewlines_other 2 t newline, List.isPrefixOf_cons_cons, List.isPrefixOf_cons_cons,
          front]
        refine ⟨rfl, fun starts => ?_⟩
        rw [Bool.and_eq_true] at starts
        simpa using rest starts.2

/-- Newlines open and close no brace. -/
theorem depth_capNewlines (room : Nat) (t : Text) : depth (capNewlines room t) = depth t := by
  induction t generalizing room with
  | nil => rfl
  | cons c t ih =>
    by_cases newline : c = '\n'
    · subst newline
      have weightless : weight '\n' = 0 := by decide
      cases room with
      | zero => rw [capNewlines_zero_newline, ih, depth_cons, weightless, Int.zero_add]
      | succ room => rw [capNewlines_succ_newline, depth_cons, depth_cons, ih]
    · rw [capNewlines_other room t newline, depth_cons, depth_cons, ih]

end Text

namespace Block

open Text

/-- Capping newline runs leaves a block a block. -/
theorem IsBlock.capNewlines {deepest : Option Nat} {t : Text} (isBlock : IsBlock deepest t)
    (room : Nat) : IsBlock deepest (capNewlines room t) where
  opens := by
    cases t with
    | nil => exact absurd isBlock not_isBlock_nil
    | cons c t =>
      obtain rfl : c = '{' := by simpa using isBlock.opens
      rw [capNewlines_other room t (by decide), List.head?_cons]
  closed := by rw [depth_capNewlines, isBlock.closed]
  inside := by
    intro p front nonempty proper
    obtain ⟨q, inside, rfl⟩ := exists_prefix_of_capNewlines front
    rw [depth_capNewlines]
    apply isBlock.inside q inside
    · rintro rfl
      exact nonempty rfl
    · rintro rfl
      exact proper rfl
  shallow := by
    intro limit given p front
    obtain ⟨q, inside, rfl⟩ := exists_prefix_of_capNewlines front
    rw [depth_capNewlines]
    exact isBlock.shallow limit given q inside

/-- Capping newline runs leaves a block closed or open as it is. -/
theorem isSome_closing?_capNewlines (deepest : Option Nat) (level passed passed' room : Nat)
    (t : Text) :
    (closing? deepest level passed (capNewlines room t)).isSome =
      (closing? deepest level passed' t).isSome := by
  induction t generalizing level passed passed' room with
  | nil => rfl
  | cons c t ih =>
    by_cases newline : c = '\n'
    · subst newline
      cases room with
      | zero =>
        rw [capNewlines_zero_newline, ih level passed (passed' + 1) 0]
        simp [closing?]
      | succ room =>
        rw [capNewlines_succ_newline]
        simpa [closing?] using ih level (passed + 1) (passed' + 1) room
    · rw [capNewlines_other room t newline]
      simp only [closing?]
      split
      · split
        · rfl
        · exact ih (level + 1) (passed + 1) (passed' + 1) 2
      · split
        · split
          · rfl
          · exact ih (level - 1) (passed + 1) (passed' + 1) 2
        · exact ih level (passed + 1) (passed' + 1) 2

theorem isSome_length?_capNewlines (deepest : Option Nat) (t : Text) :
    (Block.length? deepest (capNewlines 2 t)).isSome = (Block.length? deepest t).isSome := by
  cases t with
  | nil => rfl
  | cons c t =>
    by_cases newline : c = '\n'
    · subst newline
      simp [capNewlines_succ_newline, Block.length?]
    · rw [capNewlines_other 2 t newline]
      simp only [Block.length?]
      split
      · exact isSome_closing?_capNewlines deepest 1 1 1 2 t
      · rfl

end Block

namespace Cutting

open Text

/-- Two cuttings that hold as many blocks and leave the same once newline runs are capped. -/
structure AlikeCapped (room : Nat) (cutting cutting' : Cutting) : Prop where
  count : cutting.count = cutting'.count
  left : capNewlines room cutting.remaining = capNewlines room cutting'.remaining

namespace AlikeCapped

variable {room : Nat} {cutting cutting' : Cutting}

theorem keep_newline_left (alike : cutting.AlikeCapped 0 cutting') :
    (keep '\n' cutting).AlikeCapped 0 cutting' where
  count := by rw [count_keep, alike.count]
  left := by rw [remaining_keep, capNewlines_zero_newline, alike.left]

theorem keep_newline_right (alike : cutting.AlikeCapped 0 cutting') :
    cutting.AlikeCapped 0 (keep '\n' cutting') where
  count := by rw [count_keep, alike.count]
  left := by rw [remaining_keep, capNewlines_zero_newline, alike.left]

theorem keep_newline (alike : cutting.AlikeCapped room cutting') :
    (keep '\n' cutting).AlikeCapped (room + 1) (keep '\n' cutting') where
  count := by rw [count_keep, count_keep, alike.count]
  left := by
    rw [remaining_keep, remaining_keep, capNewlines_succ_newline, capNewlines_succ_newline,
      alike.left]

theorem keep {c : Char} (alike : cutting.AlikeCapped 2 cutting') (shown : c ≠ '\n') :
    (Cutting.keep c cutting).AlikeCapped room (Cutting.keep c cutting') where
  count := by rw [count_keep, count_keep, alike.count]
  left := by
    rw [remaining_keep, remaining_keep, capNewlines_other room _ shown,
      capNewlines_other room _ shown, alike.left]

theorem cut {block block' : Text} (alike : cutting.AlikeCapped room cutting') :
    (Cutting.cut block cutting).AlikeCapped room (Cutting.cut block' cutting') where
  count := by rw [count_cut, count_cut, alike.count]
  left := by rw [remaining_cut, remaining_cut, alike.left]

end AlikeCapped

end Cutting

namespace Rule

open Text

variable {strategy : Strategy} {name : Text}

/-- A rule starts at a character of a capped text just if one starts there in the text itself. -/
theorem isSome_length?_capNewlines (plain : '\n' ∉ name) (c : Char) (t : Text) :
    (length? strategy name (c :: capNewlines 2 t)).isSome =
      (length? strategy name (c :: t)).isSome := by
  obtain ⟨front, rest⟩ := isPrefixOf_capNewlines plain t
  simp only [length?, front]
  split
  · rename_i starts
    rw [Bool.and_eq_true] at starts
    rw [Option.isSome_map, Option.isSome_map, rest starts.2, dropWhile_capNewlines,
      Block.isSome_length?_capNewlines]
  · rfl

theorem occurs_capNewlines_iff (plain : '\n' ∉ name) (room : Nat) (t : Text) :
    Occurs strategy name (capNewlines room t) ↔ Occurs strategy name t := by
  induction t generalizing room with
  | nil => exact Iff.rfl
  | cons c t ih =>
    by_cases newline : c = '\n'
    · subst newline
      have none_ (t : Text) : length? strategy name ('\n' :: t) = none :=
        length?_eq_none_of_ne_dot (by decide)
      cases room with
      | zero => simp [capNewlines_zero_newline, ih, occurs_cons_iff, none_]
      | succ room => simp [capNewlines_succ_newline, ih, occurs_cons_iff, none_]
    · rw [capNewlines_other room t newline, occurs_cons_iff, occurs_cons_iff, ih,
        isSome_length?_capNewlines plain]

/-- Capping newline runs neither makes nor breaks a rule. -/
theorem occurs_collapse_iff (plain : '\n' ∉ name) (t : Text) :
    Occurs strategy name (collapse t) ↔ Occurs strategy name t :=
  occurs_capNewlines_iff plain 2 t

/-- Capping newline runs leaves a rule a rule. -/
theorem IsRule.capNewlines {rule : Text} (isRule : IsRule strategy name rule)
    (plain : '\n' ∉ name) : IsRule strategy name (capNewlines 2 rule) := by
  obtain ⟨head, block, rfl, ⟨blanks, rfl, blank⟩, isBlock⟩ := isRule
  obtain ⟨body, rfl⟩ := IsBlock.eq_cons isBlock
  have capped := isBlock.capNewlines 2
  rw [capNewlines_other 2 body (by decide)] at capped
  refine ⟨'.' :: name ++ Text.capNewlines 2 blanks, '{' :: Text.capNewlines 2 body, ?_,
    ⟨_, rfl, ?_⟩, capped⟩
  · have named : '\n' ∉ '.' :: name := by simp [plain]
    rw [List.append_assoc, capNewlines_append_of_not_mem named,
      capNewlines_append_cons 2 blanks (by decide), List.append_assoc]
  · intro c member
    exact blank c ((capNewlines_sublist 2 blanks).subset member)

/-- A rule neither starts nor ends with a newline, so the texts around it are capped on their own.
-/
theorem IsRule.capNewlines_append {rule : Text} (isRule : IsRule strategy name rule) (room : Nat)
    (rest : Text) :
    Text.capNewlines room (rule ++ rest) =
      Text.capNewlines 2 rule ++ Text.capNewlines 2 rest := by
  obtain ⟨tail, rfl⟩ := isRule.eq_cons
  have start (t : Text) : Text.capNewlines room ('.' :: t) = Text.capNewlines 2 ('.' :: t) := by
    rw [capNewlines_other room t (by decide), capNewlines_other 2 t (by decide)]
  obtain ⟨front, whole⟩ := isRule.ends
  rw [List.cons_append, start, ← List.cons_append, ← whole, List.append_assoc,
    List.singleton_append, capNewlines_append_cons 2 front (by decide),
    capNewlines_append_cons 2 front (by decide), List.append_assoc]
  rfl

/-- The newline runs of a stylesheet can be capped before a class is cut out of it: as many rules
are found, and what is left is the same under any cap that is no looser. -/
theorem cut_capNewlines (strategy : Strategy) (plain : '\n' ∉ name) (css : Text) :
    ∀ room room', room' ≤ room → room' ≤ 2 →
      (cut strategy name (Text.capNewlines room css)).AlikeCapped room' (cut strategy name css) := by
  refine Cutting.of_split_induction (measures_length? strategy name)
    (motive := fun t cutting => ∀ room room', room' ≤ room → room' ≤ 2 →
      (cut strategy name (Text.capNewlines room t)).AlikeCapped room' cutting) ?_ ?_ ?_ css
  · intro room room' _ _
    rw [capNewlines_nil, cut, Cutting.of_nil]
    exact ⟨rfl, rfl⟩
  · intro c t missing ih room room' tighter small
    by_cases newline : c = '\n'
    · subst newline
      cases room with
      | zero =>
        -- The newline is capped away and does not count on the other side either.
        obtain rfl : room' = 0 := by omega
        exact (ih 0 0 tighter small).keep_newline_right
      | succ room =>
        rw [capNewlines_succ_newline,
          cut_cons_of_none (length?_eq_none_of_ne_dot (by decide) : length? _ _ ('\n' :: _) = none)]
        cases room' with
        | zero => exact (ih room 0 (Nat.zero_le room) small).keep_newline_left.keep_newline_right
        | succ room' => exact (ih room room' (by omega) (by omega)).keep_newline
    · have missing' : length? strategy name (c :: Text.capNewlines 2 t) = none := by
        rw [← Option.not_isSome_iff_eq_none, isSome_length?_capNewlines plain, missing]
        decide
      rw [capNewlines_other room t newline, cut_cons_of_none missing']
      exact (ih 2 2 (Nat.le_refl 2) (Nat.le_refl 2)).keep newline
  · intro block rest found ih room room' _ small
    obtain ⟨rule, rest', same, size, isRule⟩ := length?_eq_some_iff.mp found
    obtain ⟨rfl, -⟩ := List.append_inj same size
    rw [isRule.capNewlines_append room rest, (isRule.capNewlines plain).cut_append]
    exact (ih 2 room' small small).cut

/-- The newline runs of a stylesheet can be capped before a class is cut out of it. -/
theorem cut_collapse (strategy : Strategy) (plain : '\n' ∉ name) (css : Text) :
    (cut strategy name (collapse css)).AlikeCapped 2 (cut strategy name css) :=
  cut_capNewlines strategy plain css 2 2 (Nat.le_refl 2) (Nat.le_refl 2)

end Rule

end RulePruner
