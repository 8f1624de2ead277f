import Mathlib.Data.List.Infix
import Mathlib.Tactic.ByContra
import RulePruner.Block

/-!
# Nesting of braces

The depth of a text is the number of braces it opens less the number it closes. A text is well
nested if it closes exactly what it opens, and a block is a text that its first character opens
and its last character closes. The main statement is `Block.length?_eq_some_iff`: the search for a
closing brace finds the block that a text starts with, and nothing else.
-/

namespace RulePruner

namespace Text

/-- The number of braces that a text opens less the number that it closes. -/
def depth (t : Text) : Int := (t.count '{' : Int) - t.count '}'

/-- Whether a text is free of braces. -/
def BraceFree (t : Text) : Prop := '{' ∉ t ∧ '}' ∉ t

instance (t : Text) : Decidable (BraceFree t) := by
  unfold BraceFree
  infer_instance

/-- A text that closes exactly the braces that it opens, and none before it is open. -/
structure WellNested (t : Text) : Prop where
  balanced : depth t = 0
  sane : ∀ p, p <+: t → 0 ≤ depth p

instance (t : Text) : Decidable (WellNested t) :=
  decidable_of_iff (depth t = 0 ∧ ∀ p ∈ t.inits, 0 ≤ depth p) <| by
    simp only [List.mem_inits]
    exact ⟨fun checked => ⟨checked.1, checked.2⟩, fun nested => ⟨nested.balanced, nested.sane⟩⟩

@[simp] theorem depth_nil : depth [] = 0 := rfl

@[simp] theorem depth_append (a b : Text) : depth (a ++ b) = depth a + depth b := by
  simp only [depth, List.count_append]
  omega

/-- What a character adds to the depth. -/
def weight (c : Char) : Int := if c = '{' then 1 else if c = '}' then -1 else 0

@[simp] theorem weight_open : weight '{' = 1 := rfl

@[simp] theorem weight_close : weight '}' = -1 := rfl

theorem weight_other {c : Char} (notOpen : c ≠ '{') (notClose : c ≠ '}') : weight c = 0 := by
  simp [weight, notOpen, notClose]

theorem weight_nonneg {c : Char} (notClose : c ≠ '}') : 0 ≤ weight c := by
  by_cases opens : c = '{' <;> simp [weight, opens, notClose]

theorem neg_one_le_weight (c : Char) : -1 ≤ weight c := by
  unfold weight
  split
  · decide
  · split <;> decide

@[simp] theorem depth_cons (c : Char) (t : Text) : depth (c :: t) = weight c + depth t := by
  by_cases opens : c = '{'
  · subst opens
    simp [depth]
    omega
  · by_cases closes : c = '}'
    · subst closes
      simp [depth]
      omega
    · simp [depth, weight, opens, closes]

theorem depth_of_braceFree {t : Text} (free : BraceFree t) : depth t = 0 := by
  simp [depth, List.count_eq_zero_of_not_mem free.1, List.count_eq_zero_of_not_mem free.2]

@[simp] theorem braceFree_cons {c : Char} {t : Text} :
    BraceFree (c :: t) ↔ (c ≠ '{' ∧ c ≠ '}') ∧ BraceFree t := by
  simp only [BraceFree, List.mem_cons, not_or]
  constructor
  · intro whole
    rcases whole with ⟨⟨notOpen, free⟩, notClose, free'⟩
    exact ⟨⟨Ne.symm notOpen, Ne.symm notClose⟩, free, free'⟩
  · intro parts
    rcases parts with ⟨⟨notOpen, notClose⟩, free, free'⟩
    exact ⟨⟨Ne.symm notOpen, free⟩, Ne.symm notClose, free'⟩

@[simp] theorem braceFree_append {a b : Text} :
    BraceFree (a ++ b) ↔ BraceFree a ∧ BraceFree b := by
  simp only [BraceFree, List.mem_append, not_or]
  constructor
  · intro whole
    rcases whole with ⟨⟨openA, openB⟩, closeA, closeB⟩
    exact ⟨⟨openA, closeA⟩, openB, closeB⟩
  · intro parts
    rcases parts with ⟨⟨openA, closeA⟩, openB, closeB⟩
    exact ⟨⟨openA, openB⟩, closeA, closeB⟩

theorem BraceFree.of_front {p t : Text} (free : BraceFree t) (front : p <+: t) : BraceFree p :=
  ⟨fun opens => free.1 (front.subset opens), fun closes => free.2 (front.subset closes)⟩

/-- A law of all fronts of a text holds of the empty front and, one character on, of the fronts of
what follows. -/
theorem forall_prefix_cons {c : Char} {t : Text} {P : Text → Prop} :
    (∀ p, p <+: c :: t → P p) ↔ P [] ∧ ∀ p, p <+: t → P (c :: p) := by
  constructor
  · intro all
    exact ⟨all [] List.nil_prefix, fun p front => all _ (List.cons_prefix_cons.mpr ⟨rfl, front⟩)⟩
  · rintro ⟨nil, cons⟩ p front
    rcases List.prefix_cons_iff.mp front with rfl | ⟨q, rfl, inside⟩
    · exact nil
    · exact cons q inside

/-- A front of two texts lies within the first or ends in the second. -/
theorem prefix_append_cases {p a b : Text} (front : p <+: a ++ b) :
    p <+: a ∨ ∃ q, q <+: b ∧ p = a ++ q := by
  rcases List.prefix_or_prefix_of_prefix front (List.prefix_append a b) with inside | ⟨q, rfl⟩
  · exact Or.inl inside
  · exact Or.inr ⟨q, (List.prefix_append_right_inj a).mp front, rfl⟩

theorem wellNested_of_braceFree {t : Text} (free : BraceFree t) : WellNested t where
  balanced := depth_of_braceFree free
  sane := by
    intro p front
    exact Int.le_of_eq (depth_of_braceFree (free.of_front front)).symm

theorem WellNested.append {a b : Text} (first : WellNested a) (second : WellNested b) :
    WellNested (a ++ b) where
  balanced := by rw [depth_append, first.balanced, second.balanced]; rfl
  sane := by
    intro p front
    rcases prefix_append_cases front with inside | ⟨q, inside, rfl⟩
    · exact first.sane p inside
    · rw [depth_append, first.balanced]
      have := second.sane q inside
      omega

/-- What is left of a well-nested text behind any of its places closes no less than it opens. -/
theorem WellNested.depth_suffix_nonpos {a b : Text} (nested : WellNested (a ++ b)) :
    depth b ≤ 0 := by
  have whole := nested.balanced
  have front := nested.sane a (List.prefix_append a b)
  rw [depth_append] at whole
  omega

end Text

namespace Block

open Text

/-- A block: its first character opens it, it stays open until its last character, and where a
greatest depth is given no brace inside goes deeper. -/
structure IsBlock (deepest : Option Nat) (t : Text) : Prop where
  opens : t.head? = some '{'
  closed : depth t = 0
  inside : ∀ p, p <+: t → p ≠ [] → p ≠ t → 0 < depth p
  shallow : ∀ limit ∈ deepest, ∀ p, p <+: t → depth p ≤ limit

/-- A text that is read with `level` braces open and closes the last of them at its end. -/
structure Closes (deepest : Option Nat) (level : Int) (body : Text) : Prop where
  closed : level + depth body = 0
  inside : ∀ p, p <+: body → p ≠ body → 0 < level + depth p
  shallow : ∀ limit ∈ deepest, ∀ p, p <+: body → level + depth p ≤ limit

variable {deepest : Option Nat}

theorem not_closes_nil {level : Int} (positive : 0 < level) : ¬ Closes deepest level [] := by
  intro closes
  have := closes.closed
  rw [depth_nil] at this
  omega

/-- A character is the last one of a body if it closes the last open brace; otherwise the rest of
the body is read with the braces that are open behind it. -/
theorem closes_cons_iff {level : Int} {c : Char} {body : Text} (positive : 0 < level)
    (roomy : ∀ limit ∈ deepest, level ≤ limit) :
    Closes deepest level (c :: body) ↔
      if level + weight c = 0 then body = [] else Closes deepest (level + weight c) body := by
  split
  · rename_i last
    constructor
    · intro closes
      cases body with
      | nil => rfl
      | cons d body =>
        have early := closes.inside [c] (by simp) (by simp)
        simp only [depth_cons, depth_nil] at early
        omega
    · rintro rfl
      refine ⟨by simpa using last, ?_, ?_⟩
      · refine forall_prefix_cons.mpr ⟨fun _ => by simpa using positive, ?_⟩
        intro p front proper
        exact absurd (List.prefix_nil.mp front) (by simpa using proper)
      · intro limit given
        have room := roomy limit given
        refine forall_prefix_cons.mpr ⟨by simpa using room, ?_⟩
        intro p front
        rw [List.prefix_nil.mp front, depth_cons, depth_nil]
        omega
  · constructor
    · intro closes
      rcases closes with ⟨closed, inside, shallow⟩
      refine ⟨?_, ?_, ?_⟩
      · rw [← closed, depth_cons, Int.add_assoc]
      · intro p front proper
        have := inside (c :: p) (List.cons_prefix_cons.mpr ⟨rfl, front⟩) (by simpa using proper)
        rwa [depth_cons, ← Int.add_assoc] at this
      · intro limit given p front
        have := shallow limit given (c :: p) (List.cons_prefix_cons.mpr ⟨rfl, front⟩)
        rwa [depth_cons, ← Int.add_assoc] at this
    · intro closes
      rcases closes with ⟨closed, inside, shallow⟩
      refine ⟨?_, ?_, ?_⟩
      · rw [← closed, depth_cons, Int.add_assoc]
      · refine forall_prefix_cons.mpr ⟨fun _ => by simpa using positive, ?_⟩
        intro p front proper
        rw [depth_cons, ← Int.add_assoc]
        exact inside p front (by simpa using proper)
      · intro limit given
        refine forall_prefix_cons.mpr ⟨by simpa using roomy limit given, ?_⟩
        intro p front
        rw [depth_cons, ← Int.add_assoc]
        exact shallow limit given p front

/-- Reading one character on, with the braces that are open behind it. -/
theorem exists_closes_cons_iff {level : Int} {passed n : Nat} {c : Char} {t : Text}
    (positive : 0 < level) (roomy : ∀ limit ∈ deepest, level ≤ limit) :
    (∃ body rest, c :: t = body ++ rest ∧ n = passed + body.length ∧
      Closes deepest level body) ↔
      if level + weight c = 0 then n = passed + 1
      else ∃ body rest, t = body ++ rest ∧ n = passed + 1 + body.length ∧
        Closes deepest (level + weight c) body := by
  constructor
  · intro found
    rcases found with ⟨body, rest, split, rfl, closes⟩
    cases body with
    | nil => exact absurd closes (not_closes_nil positive)
    | cons d body =>
      obtain ⟨rfl, rfl⟩ := List.cons_eq_cons.mp split
      rw [closes_cons_iff positive roomy] at closes
      split at closes
      · simp_all
      · rename_i more
        rw [if_neg more]
        refine ⟨body, rest, rfl, ?_, closes⟩
        simp only [List.length_cons]
        omega
  · split
    · rename_i last
      rintro rfl
      refine ⟨[c], t, rfl, rfl, ?_⟩
      rw [closes_cons_iff positive roomy, if_pos last]
    · rename_i more
      intro found
      rcases found with ⟨body, rest, rfl, rfl, closes⟩
      refine ⟨c :: body, rest, rfl, ?_, ?_⟩
      · simp only [List.length_cons]
        omega
      · rwa [closes_cons_iff positive roomy, if_neg more]

/-- The search from inside a block ends at the brace that closes the block. -/
theorem closing?_eq_some_iff {level passed n : Nat} {t : Text} (positive : 0 < level)
    (roomy : ∀ limit ∈ deepest, level ≤ limit) :
    closing? deepest level passed t = some n ↔
      ∃ body rest, t = body ++ rest ∧ n = passed + body.length ∧ Closes deepest level body := by
  induction t generalizing level passed with
  | nil =>
    constructor
    · intro found
      simp [closing?] at found
    · intro found
      rcases found with ⟨body, rest, split, -, closes⟩
      obtain ⟨rfl, -⟩ := List.append_eq_nil_iff.mp split.symm
      exact absurd closes (not_closes_nil (by omega))
  | cons c t ih =>
    rw [exists_closes_cons_iff (by omega) (by exact_mod_cast roomy), closing?]
    by_cases opens : c = '{'
    · subst opens
      have deeper : ¬ (level : Int) + weight '{' = 0 := by
        rw [weight_open]
        omega
      rw [if_pos rfl, if_neg deeper, weight_open]
      by_cases full : deepest.any (· ≤ level) = true
      · rw [if_pos full]
        obtain ⟨limit, given, reached⟩ := (Option.any_eq_true _ _).mp full
        refine ⟨fun found => by simp at found, ?_⟩
        intro found
        rcases found with ⟨body, rest, -, -, closes⟩
        have := closes.shallow limit given [] List.nil_prefix
        have reached : limit ≤ level := by simpa using reached
        rw [depth_nil] at this
        omega
      · rw [if_neg full]
        apply ih (by omega)
        intro limit given
        by_contra deeper
        exact full ((Option.any_eq_true _ _).mpr ⟨limit, given, by simpa using by omega⟩)
    · rw [if_neg opens]
      by_cases closes : c = '}'
      · subst closes
        rw [if_pos rfl, weight_close]
        by_cases last : level ≤ 1
        · have closed : (level : Int) + -1 = 0 := by omega
          rw [if_pos last, if_pos closed]
          simp [eq_comm]
        · have unclosed : ¬ (level : Int) + -1 = 0 := by omega
          have earlier : (level : Int) + -1 = (level - 1 : Nat) := by omega
          rw [if_neg last, if_neg unclosed, earlier]
          apply ih (by omega)
          intro limit given
          have := roomy limit given
          omega
      · have unclosed : ¬ (level : Int) + 0 = 0 := by omega
        rw [if_neg closes, weight_other opens closes, if_neg unclosed, Int.add_zero]
        exact ih positive roomy

/-- A block is a brace and a body that closes it. -/
theorem isBlock_cons_iff {c : Char} {body : Text} (roomy : ∀ limit ∈ deepest, 1 ≤ limit) :
    IsBlock deepest (c :: body) ↔ c = '{' ∧ Closes deepest 1 body := by
  constructor
  · intro isBlock
    rcases isBlock with ⟨opens, closed, inside, shallow⟩
    obtain rfl : c = '{' := by simpa using opens
    refine ⟨rfl, by simpa using closed, ?_, ?_⟩
    · intro p front proper
      simpa using inside ('{' :: p) (by simpa using front) (by simp) (by simpa using proper)
    · intro limit given p front
      simpa using shallow limit given ('{' :: p) (by simpa using front)
  · rintro ⟨rfl, closed, inside, shallow⟩
    refine ⟨rfl, by simpa using closed, ?_, ?_⟩
    · refine forall_prefix_cons.mpr ⟨fun absent => absurd rfl absent, ?_⟩
      intro p front _ proper
      simpa using inside p front (by simpa using proper)
    · intro limit given
      have room := roomy limit given
      refine forall_prefix_cons.mpr ⟨by simp, ?_⟩
      intro p front
      simpa using shallow limit given p front

theorem not_isBlock_nil : ¬ IsBlock deepest [] := by
  intro block
  simpa using block.opens

/-- The search for a block finds the block that a text starts with, and nothing else. -/
theorem length?_eq_some_iff {n : Nat} {t : Text} (roomy : ∀ limit ∈ deepest, 1 ≤ limit) :
    length? deepest t = some n ↔
      ∃ block rest, t = block ++ rest ∧ n = block.length ∧ IsBlock deepest block := by
  cases t with
  | nil =>
    constructor
    · intro found
      simp [length?] at found
    · intro found
      rcases found with ⟨block, rest, split, -, isBlock⟩
      obtain ⟨rfl, -⟩ := List.append_eq_nil_iff.mp split.symm
      exact absurd isBlock not_isBlock_nil
  | cons c t =>
    rw [length?]
    by_cases opens : c = '{'
    · rw [if_pos opens, closing?_eq_some_iff (by omega) roomy]
      constructor
      · intro found
        rcases found with ⟨body, rest, rfl, rfl, closes⟩
        refine ⟨c :: body, rest, rfl, ?_, (isBlock_cons_iff roomy).mpr ⟨opens, closes⟩⟩
        simp only [List.length_cons]
        omega
      · intro found
        rcases found with ⟨block, rest, split, rfl, isBlock⟩
        cases block with
        | nil => exact absurd isBlock not_isBlock_nil
        | cons d body =>
          obtain ⟨rfl, rfl⟩ := List.cons_eq_cons.mp split
          refine ⟨body, rest, rfl, ?_, ((isBlock_cons_iff roomy).mp isBlock).2⟩
          simp only [List.length_cons]
          omega
    · rw [if_neg opens]
      constructor
      · intro found
        simp at found
      · intro found
        rcases found with ⟨block, rest, split, -, isBlock⟩
        cases block with
        | nil => exact absurd isBlock not_isBlock_nil
        | cons d body =>
          obtain ⟨rfl, -⟩ := List.cons_eq_cons.mp split
          exact absurd ((isBlock_cons_iff roomy).mp isBlock).1 opens

theorem IsBlock.wellNested {t : Text} (block : IsBlock deepest t) : WellNested t where
  balanced := block.closed
  sane := by
    intro p front
    by_cases empty : p = []
    · exact Int.le_of_eq (by rw [empty, depth_nil])
    · by_cases whole : p = t
      · exact Int.le_of_eq (by rw [whole, block.closed])
      · exact Int.le_of_lt (block.inside p front empty whole)

/-- A block is closed by its last character. -/
theorem IsBlock.ends {t : Text} (block : IsBlock deepest t) : ['}'] <:+ t := by
  rcases List.eq_nil_or_concat t with rfl | ⟨front, c, rfl⟩
  · exact absurd block not_isBlock_nil
  · suffices c = '}' by simp [this]
    have whole := block.closed
    rw [List.concat_eq_append, depth_append, depth_cons, depth_nil] at whole
    by_contra other
    have positive := weight_nonneg other
    cases front with
    | nil =>
      have opens := block.opens
      simp only [List.concat_eq_append, List.nil_append, List.head?_cons,
        Option.some.injEq] at opens
      simp [opens] at whole
    | cons d front =>
      have := block.inside (d :: front) (by simp) (by simp) (by simp)
      omega

/-- A block is a well-nested text between a brace that opens and one that closes. -/
theorem isBlock_iff_exists_wellNested {t : Text} :
    IsBlock none t ↔ ∃ inner, t = '{' :: (inner ++ ['}']) ∧ WellNested inner := by
  constructor
  · intro block
    obtain ⟨front, rfl⟩ := block.ends
    cases front with
    | nil => exact absurd block.opens (by decide)
    | cons c inner =>
      obtain rfl : c = '{' := by simpa using block.opens
      refine ⟨inner, rfl, ?_, ?_⟩
      · have closed := block.closed
        simp only [depth_append, depth_cons, depth_nil, weight_open, weight_close] at closed
        omega
      · intro p front
        have early : '{' :: p <+: '{' :: inner ++ ['}'] :=
          List.IsPrefix.trans (List.cons_prefix_cons.mpr ⟨rfl, front⟩) (List.prefix_append _ _)
        have proper : '{' :: p ≠ '{' :: inner ++ ['}'] := by
          intro whole
          have := congrArg List.length whole
          have := front.length_le
          simp only [List.length_append, List.length_cons, List.length_nil] at *
          omega
        have := block.inside _ early (by simp) proper
        rw [depth_cons, weight_open] at this
        omega
  · rintro ⟨inner, rfl, nested⟩
    refine ⟨rfl, ?_, ?_, by simp⟩
    · simp [nested.balanced]
    · refine forall_prefix_cons.mpr ⟨fun absent => absurd rfl absent, ?_⟩
      intro p front _ proper
      rcases List.prefix_concat_iff.mp front with rfl | inside
      · exact absurd rfl proper
      · have := nested.sane p inside
        rw [depth_cons, weight_open]
        omega

end Block

end RulePruner
