import Mathlib.Data.List.Infix
import Mathlib.Data.List.TakeWhile
import RulePruner.Proofs.Block.Nesting
import RulePruner.Rule.Basic

/-!
# The shape of rules

A rule of a class is a head, which is a dot, the class name and blanks, and a block after it. The
main statement is `Rule.length?_eq_some_iff`: the search at one place of a stylesheet finds the
rule that starts there, and nothing else. A rule of a class without braces in its name is well
nested, and one that starts inside a closed stretch of text ends inside it.
-/

namespace RulePruner

theorem Strategy.one_le_deepest (strategy : Strategy) : ∀ limit ∈ strategy.deepest, 1 ≤ limit := by
  cases strategy <;> simp [Strategy.deepest]

namespace Rule

open Text Block

/-- What stands before the block of a rule: a dot, the class name and blanks. -/
def IsHead (name head : Text) : Prop :=
  ∃ blanks, head = '.' :: name ++ blanks ∧ ∀ c ∈ blanks, isBlank c

/-- A rule of class `name`: a head and a block. -/
def IsRule (strategy : Strategy) (name rule : Text) : Prop :=
  ∃ head block, rule = head ++ block ∧ IsHead name head ∧ IsBlock strategy.deepest block

/-- Somewhere in a stylesheet stands a rule of class `name`. -/
def Occurs (strategy : Strategy) (name css : Text) : Prop :=
  ∃ before rule after, css = before ++ rule ++ after ∧ IsRule strategy name rule

variable {strategy : Strategy} {name : Text}

theorem braceFree_of_blank {t : Text} (blank : ∀ c ∈ t, isBlank c) : BraceFree t := by
  constructor
  · intro opens
    simpa [isBlank_openBrace] using blank '{' opens
  · intro closes
    simpa [isBlank_closeBrace] using blank '}' closes

theorem IsHead.braceFree {head : Text} (isHead : IsHead name head) (free : BraceFree name) :
    BraceFree head := by
  obtain ⟨blanks, rfl, blank⟩ := isHead
  simp [free, braceFree_of_blank blank]

theorem IsBlock.eq_cons {deepest : Option Nat} {block : Text} (isBlock : IsBlock deepest block) :
    ∃ body, block = '{' :: body := by
  cases block with
  | nil => exact absurd isBlock not_isBlock_nil
  | cons c body =>
    obtain rfl : c = '{' := by simpa using isBlock.opens
    exact ⟨body, rfl⟩

/-- A rule is a head, a brace and a body that closes it. -/
theorem isRule_iff {rule : Text} :
    IsRule strategy name rule ↔ ∃ head body, rule = head ++ '{' :: body ∧ IsHead name head ∧
      Closes strategy.deepest 1 body := by
  constructor
  · intro isRule
    rcases isRule with ⟨head, block, rfl, isHead, isBlock⟩
    obtain ⟨body, rfl⟩ := IsBlock.eq_cons isBlock
    exact ⟨head, body, rfl, isHead, ((isBlock_cons_iff strategy.one_le_deepest).mp isBlock).2⟩
  · intro parts
    rcases parts with ⟨head, body, rfl, isHead, closes⟩
    exact ⟨head, _, rfl, isHead, (isBlock_cons_iff strategy.one_le_deepest).mpr ⟨rfl, closes⟩⟩

/-- The blanks before a block end where the block starts. -/
theorem takeWhile_isBlank_append {blanks body : Text} (blank : ∀ c ∈ blanks, isBlank c) :
    (blanks ++ '{' :: body).takeWhile isBlank = blanks := by
  rw [List.takeWhile_append_of_pos blank, List.takeWhile_cons_of_neg (by decide), List.append_nil]

theorem length?_eq_some_iff {n : Nat} {t : Text} :
    length? strategy name t = some n ↔
      ∃ rule rest, t = rule ++ rest ∧ n = rule.length ∧ IsRule strategy name rule := by
  constructor
  · intro found
    cases t with
    | nil => simp [length?] at found
    | cons c t =>
      simp only [length?] at found
      split at found
      · rename_i starts
        obtain ⟨m, closed, rfl⟩ := Option.map_eq_some_iff.mp found
        obtain ⟨block, rest, split, rfl, isBlock⟩ :=
          (Block.length?_eq_some_iff strategy.one_le_deepest).mp closed
        simp only [Bool.and_eq_true, decide_eq_true_eq, List.isPrefixOf_iff_prefix] at starts
        obtain ⟨rfl, tail, rfl⟩ := starts
        rw [List.drop_left] at split
        refine ⟨'.' :: name ++ tail.takeWhile isBlank ++ block, rest, ?_, ?_, ?_⟩
        · calc '.' :: (name ++ tail)
              = '.' :: (name ++ (tail.takeWhile isBlank ++ tail.dropWhile isBlank)) := by
                rw [List.takeWhile_append_dropWhile]
            _ = '.' :: name ++ tail.takeWhile isBlank ++ block ++ rest := by
                rw [split]
                simp
        · simp only [List.drop_left, List.length_append, List.length_cons]
          omega
        · exact ⟨_, block, rfl, ⟨_, rfl, fun c => List.mem_takeWhile_imp⟩, isBlock⟩
      · simp at found
  · rintro ⟨rule, rest, rfl, rfl, head, block, rfl, ⟨blanks, rfl, blank⟩, isBlock⟩
    have closed : Block.length? strategy.deepest (block ++ rest) = some block.length :=
      (Block.length?_eq_some_iff strategy.one_le_deepest).mpr ⟨block, rest, rfl, rfl, isBlock⟩
    obtain ⟨body, rfl⟩ := IsBlock.eq_cons isBlock
    have behind : (blanks ++ '{' :: (body ++ rest)).dropWhile isBlank = '{' :: (body ++ rest) := by
      rw [List.dropWhile_append_of_pos blank, List.dropWhile_cons_of_neg (by decide)]
    simp only [List.cons_append, List.append_assoc, length?] at closed ⊢
    rw [if_pos (by simp), List.drop_left, behind, takeWhile_isBlank_append blank, closed]
    simp only [Option.map_some, Option.some.injEq, List.length_cons, List.length_append]
    omega

theorem length?_eq_none_iff {t : Text} :
    length? strategy name t = none ↔
      ∀ rule rest, t = rule ++ rest → ¬ IsRule strategy name rule := by
  rw [Option.eq_none_iff_forall_ne_some]
  constructor
  · intro missing rule rest split isRule
    exact missing rule.length (length?_eq_some_iff.mpr ⟨rule, rest, split, rfl, isRule⟩)
  · intro missing n found
    obtain ⟨rule, rest, split, -, isRule⟩ := length?_eq_some_iff.mp found
    exact missing rule rest split isRule

theorem IsRule.length?_append {rule : Text} (isRule : IsRule strategy name rule) (rest : Text) :
    length? strategy name (rule ++ rest) = some rule.length :=
  length?_eq_some_iff.mpr ⟨rule, rest, rfl, rfl, isRule⟩

theorem IsRule.length_ge {rule : Text} (isRule : IsRule strategy name rule) :
    name.length + 3 ≤ rule.length :=
  (length?_bounds (isRule.length?_append [])).1

theorem IsRule.eq_cons {rule : Text} (isRule : IsRule strategy name rule) :
    ∃ rest, rule = '.' :: rest := by
  obtain ⟨head, block, rfl, ⟨blanks, rfl, -⟩, -⟩ := isRule
  exact ⟨_, rfl⟩

instance (strategy : Strategy) (name css : Text) : Decidable (Occurs strategy name css) :=
  decidable_of_iff (∃ t ∈ css.tails, (length? strategy name t).isSome = true) <| by
    simp only [List.mem_tails, Option.isSome_iff_exists, length?_eq_some_iff]
    constructor
    · rintro ⟨t, ⟨before, rfl⟩, n, rule, after, rfl, -, isRule⟩
      exact ⟨before, rule, after, (List.append_assoc before rule after).symm, isRule⟩
    · intro occurs
      rcases occurs with ⟨before, rule, after, rfl, isRule⟩
      exact ⟨rule ++ after, ⟨before, (List.append_assoc before rule after).symm⟩, rule.length, rule,
        after, rfl, rfl, isRule⟩

theorem not_occurs_nil : ¬ Occurs strategy name [] := by
  intro occurs
  rcases occurs with ⟨before, rule, after, split, isRule⟩
  have := isRule.length_ge
  have size := congrArg List.length split
  simp only [List.length_nil, List.length_append] at size
  omega

/-- A rule in a text starts at its first character or stands in the rest of it. -/
theorem occurs_cons_iff {c : Char} {t : Text} :
    Occurs strategy name (c :: t) ↔
      (length? strategy name (c :: t)).isSome ∨ Occurs strategy name t := by
  constructor
  · intro occurs
    rcases occurs with ⟨before, rule, after, split, isRule⟩
    cases before with
    | nil =>
      rw [split, List.nil_append, isRule.length?_append]
      exact Or.inl rfl
    | cons d before =>
      obtain ⟨rfl, rfl⟩ := List.cons_eq_cons.mp split
      exact Or.inr ⟨before, rule, after, rfl, isRule⟩
  · intro occurs
    rcases occurs with found | ⟨before, rule, after, rfl, isRule⟩
    · obtain ⟨n, found⟩ := Option.isSome_iff_exists.mp found
      obtain ⟨rule, rest, split, -, isRule⟩ := length?_eq_some_iff.mp found
      exact ⟨[], rule, rest, split, isRule⟩
    · exact ⟨c :: before, rule, after, rfl, isRule⟩

/-- A rule is closed by its last character. -/
theorem IsRule.ends {rule : Text} (isRule : IsRule strategy name rule) : ['}'] <:+ rule := by
  obtain ⟨head, block, rfl, -, isBlock⟩ := isRule
  exact isBlock.ends.trans (List.suffix_append head block)

theorem IsRule.wellNested {rule : Text} (isRule : IsRule strategy name rule)
    (free : BraceFree name) : WellNested rule := by
  obtain ⟨head, block, rfl, isHead, isBlock⟩ := isRule
  exact (wellNested_of_braceFree (isHead.braceFree free)).append isBlock.wellNested

/-- A rule ends before a text does that closes at least the braces it opens, one of them anyway. -/
theorem IsRule.within {u rest rule after : Text} (isRule : IsRule strategy name rule)
    (free : BraceFree name) (closes : '}' ∈ u) (level : depth u ≤ 0)
    (split : u ++ rest = rule ++ after) : rule <+: u := by
  obtain ⟨head, block, rfl, isHead, isBlock⟩ := isRule
  have front : u <+: head ++ block ∨ head ++ block <+: u :=
    List.prefix_or_prefix_of_prefix ⟨rest, split⟩ ⟨after, rfl⟩
  rcases front with front | front
  · rcases prefix_append_cases front with early | ⟨p, inside, rfl⟩
    · exact absurd closes ((isHead.braceFree free).of_front early).2
    · by_cases whole : p = block
      · rw [whole]
      · by_cases empty : p = []
        · rw [empty, List.append_nil] at closes
          exact absurd closes (isHead.braceFree free).2
        · have := isBlock.inside p inside empty whole
          rw [depth_append, depth_of_braceFree (isHead.braceFree free)] at level
          omega
  · exact front

/-- A rule that starts inside another rule ends inside it. -/
theorem IsRule.nested {other : Strategy} {outerName front u rest rule after : Text}
    (isRule : IsRule strategy name rule) (free : BraceFree name)
    (outer : IsRule other outerName (front ++ u)) (outerFree : BraceFree outerName)
    (starts : u ≠ []) (split : u ++ rest = rule ++ after) : rule <+: u := by
  refine isRule.within free ?_ (outer.wellNested outerFree).depth_suffix_nonpos split
  have last : ['}'] <:+ u := by
    rcases List.suffix_or_suffix_of_suffix outer.ends (List.suffix_append front u) with
      inside | inside
    · exact inside
    · rcases List.suffix_cons_iff.mp inside with rfl | empty
      · exact List.suffix_refl _
      · exact absurd (List.suffix_nil.mp empty) starts
  exact last.subset (by simp)

/-- A rule that starts inside another rule ends inside it, told by where the two stand. -/
theorem IsRule.length_le_of_nested {other : Strategy}
    {outerName front outer rest before rule after : Text} (isRule : IsRule strategy name rule)
    (free : BraceFree name) (isOuter : IsRule other outerName outer)
    (outerFree : BraceFree outerName)
    (split : front ++ outer ++ rest = before ++ rule ++ after)
    (low : front.length ≤ before.length) (high : before.length < front.length + outer.length) :
    before.length + rule.length ≤ front.length + outer.length := by
  rw [List.append_assoc, List.append_assoc] at split
  obtain ⟨skipped, rfl⟩ : front <+: before :=
    List.prefix_of_prefix_length_le ⟨outer ++ rest, split⟩ ⟨_, rfl⟩ low
  rw [List.append_assoc] at split
  have inner := List.append_cancel_left split
  obtain ⟨u, rfl⟩ : skipped <+: outer := by
    apply List.prefix_of_prefix_length_le ⟨rule ++ after, inner.symm⟩ ⟨rest, rfl⟩
    simp only [List.length_append] at high
    omega
  rw [List.append_assoc] at inner
  have starts : u ≠ [] := by
    rintro rfl
    simp at high
  have within := isRule.nested free isOuter outerFree starts (List.append_cancel_left inner)
  have := within.length_le
  simp only [List.length_append]
  omega

/-- All rules that start at one place are the same text. -/
theorem IsRule.unique {name' rule rule' rest rest' : Text} (isRule : IsRule strategy name rule)
    (isRule' : IsRule strategy name' rule') (free : BraceFree name) (free' : BraceFree name')
    (same : rule ++ rest = rule' ++ rest') : rule = rule' := by
  have first : rule <+: rule' :=
    isRule.within free (isRule'.ends.subset (by simp))
      (Int.le_of_eq (isRule'.wellNested free').balanced) same.symm
  have second : rule' <+: rule :=
    isRule'.within free' (isRule.ends.subset (by simp))
      (Int.le_of_eq (isRule.wellNested free).balanced) same
  exact first.eq_of_length (Nat.le_antisymm first.length_le second.length_le)

theorem IsRule.balanced {rule : Text} (isRule : IsRule strategy name rule) :
    IsRule .balanced name rule := by
  obtain ⟨head, block, rfl, isHead, opens, closed, inside, -⟩ := isRule
  exact ⟨head, block, rfl, isHead, opens, closed, inside, by simp [Strategy.deepest]⟩

/-- The fast strategy finds nothing where the balanced one finds nothing. -/
theorem length?_fast_eq_none {t : Text} (missing : length? .balanced name t = none) :
    length? .fast name t = none := by
  rw [length?_eq_none_iff] at missing ⊢
  intro rule rest split isRule
  exact missing rule rest split isRule.balanced

end Rule

end RulePruner
