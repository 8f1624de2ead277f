import RulePruner.Proofs.Rule.Without

/-!
# Covered places

A place of a stylesheet is covered by some classes if it lies in a rule of one of them. The main
statement is `Rule.without_eq_deleting`: cutting the rules of several classes out in one pass
deletes exactly the characters at covered places.
-/

namespace RulePruner

namespace Text

/-- A text without the characters at the places that are `gone`. -/
def deleting (gone : Nat → Prop) [DecidablePred gone] (t : Text) : Text :=
  (t.zipIdx.filter fun placed => ¬ gone placed.2).map Prod.fst

section Deleting

variable {gone gone' : Nat → Prop} [DecidablePred gone] [DecidablePred gone']

theorem deleting_cons (c : Char) (t : Text) :
    deleting gone (c :: t) =
      if gone 0 then deleting (fun i => gone (i + 1)) t
      else c :: deleting (fun i => gone (i + 1)) t := by
  have later : (t.zipIdx 1).filter (fun placed => ¬ gone placed.2) =
      (t.zipIdx.filter fun placed => ¬ gone (placed.2 + 1)).map fun placed =>
        (placed.1, placed.2 + 1) := by
    rw [show (1 : Nat) = 0 + 1 from rfl, List.zipIdx_succ, List.filter_map]
    rfl
  unfold deleting
  rw [List.zipIdx_cons, List.filter_cons, Nat.zero_add, later]
  by_cases first : gone 0 <;> simp [first, Function.comp_def]

theorem deleting_congr {t : Text} (same : ∀ i, gone i ↔ gone' i) :
    deleting gone t = deleting gone' t := by
  induction t generalizing gone gone' with
  | nil => rfl
  | cons c t ih =>
    rw [deleting_cons, deleting_cons, ih fun i => same (i + 1)]
    simp only [same 0]

/-- What is gone as a whole at the start of a text leaves only what follows it. -/
theorem deleting_append_of_gone {a : Text} (b : Text) (all : ∀ i, i < a.length → gone i) :
    deleting gone (a ++ b) = deleting (fun i => gone (a.length + i)) b := by
  induction a generalizing gone with
  | nil => exact deleting_congr (by simp)
  | cons c a ih =>
    have first : gone 0 := all 0 (by simp)
    rw [List.cons_append, deleting_cons, if_pos first, ih]
    · apply deleting_congr
      intro i
      rw [List.length_cons, Nat.add_right_comm]
    · intro i inside
      exact all (i + 1) (by simpa using inside)

end Deleting

end Text

namespace Rule

open Text

/-- Whether a place of a stylesheet lies in a rule of one of the classes. -/
def Covered (names : List Text) (css : Text) (i : Nat) : Prop :=
  ∃ name ∈ names, ∃ before rule after, css = before ++ rule ++ after ∧
    IsRule .balanced name rule ∧ before.length ≤ i ∧ i < before.length + rule.length

/-- Whether a rule of one of the classes, as it is found at some place, reaches a place. -/
def covers (names : List Text) (css : Text) (i : Nat) : Bool :=
  names.any fun name => (List.range (i + 1)).any fun start =>
    (length? .balanced name (css.drop start)).any fun n => i < start + n

theorem covers_iff {names : List Text} {css : Text} {i : Nat} :
    covers names css i = true ↔ Covered names css i := by
  simp only [covers, Covered, List.any_eq_true, List.mem_range, Option.any_eq_true,
    length?_eq_some_iff, decide_eq_true_eq]
  constructor
  · intro found
    rcases found with ⟨name, member, start, early, n, ⟨rule, after, split, rfl, isRule⟩, late⟩
    have inside : (css.take start).length = start := by
      have size := congrArg List.length split
      have := isRule.length_ge
      simp only [List.length_drop, List.length_append] at size
      exact List.length_take_of_le (by omega)
    refine ⟨name, member, css.take start, rule, after, ?_, isRule, ?_, ?_⟩
    · rw [List.append_assoc, ← split, List.take_append_drop]
    · omega
    · omega
  · intro covered
    rcases covered with ⟨name, member, before, rule, after, rfl, isRule, early, late⟩
    refine ⟨name, member, before.length, by omega, rule.length, ⟨rule, after, ?_, rfl, isRule⟩,
      late⟩
    rw [List.append_assoc, List.drop_left]

instance (names : List Text) (css : Text) : DecidablePred (Covered names css) :=
  fun _ => decidable_of_iff _ covers_iff

variable {names : List Text}

theorem covered_cons_iff {c : Char} {t : Text} {i : Nat}
    (missing : ∀ name ∈ names, length? .balanced name (c :: t) = none) :
    Covered names (c :: t) i ↔ ∃ j, i = j + 1 ∧ Covered names t j := by
  constructor
  · intro covered
    rcases covered with ⟨name, member, before, rule, after, split, isRule, low, high⟩
    cases before with
    | nil => exact absurd isRule (length?_eq_none_iff.mp (missing name member) rule after split)
    | cons d before =>
      obtain ⟨rfl, rfl⟩ := List.cons_eq_cons.mp split
      simp only [List.length_cons] at low high
      refine ⟨i - 1, by omega, name, member, before, rule, after, rfl, isRule, ?_, ?_⟩
      all_goals omega
  · rintro ⟨j, rfl, name, member, before, rule, after, rfl, isRule, low, high⟩
    refine ⟨name, member, c :: before, rule, after, rfl, isRule, ?_, ?_⟩
    all_goals
      simp only [List.length_cons]
      omega

theorem covered_append_iff {name rule rest : Text} {i : Nat}
    (free : ∀ name ∈ names, BraceFree name) (member : name ∈ names)
    (isRule : IsRule .balanced name rule) :
    Covered names (rule ++ rest) i ↔
      i < rule.length ∨ ∃ j, i = rule.length + j ∧ Covered names rest j := by
  constructor
  · intro covered
    rcases covered with ⟨other, otherMember, before, inner, after, split, isInner, low, high⟩
    by_cases early : before.length < rule.length
    · have ends := isInner.length_le_of_nested (free other otherMember) isRule (free name member)
        (show [] ++ rule ++ rest = before ++ inner ++ after from split) (by simp)
        (by simpa using early)
      rw [List.length_nil, Nat.zero_add] at ends
      exact Or.inl (by omega)
    · rw [List.append_assoc] at split
      obtain ⟨front, rfl⟩ : rule <+: before :=
        List.prefix_of_prefix_length_le ⟨rest, split⟩ ⟨inner ++ after, rfl⟩ (by omega)
      rw [List.append_assoc] at split
      simp only [List.length_append] at low high
      refine Or.inr ⟨i - rule.length, by omega, other, otherMember, front, inner, after, ?_,
        isInner, by omega, by omega⟩
      rw [List.append_cancel_left split, List.append_assoc]
  · rintro (inside | ⟨j, rfl, other, otherMember, before, inner, after, rfl, isInner, low, high⟩)
    · exact ⟨name, member, [], rule, rest, rfl, isRule, by simp, by simpa using inside⟩
    · refine ⟨other, otherMember, rule ++ before, inner, after, by simp, isInner, ?_, ?_⟩
      all_goals
        simp only [List.length_append]
        omega

/-- Cutting the rules of several classes out in one pass deletes exactly the covered places. -/
theorem without_eq_deleting (free : ∀ name ∈ names, BraceFree name) (css : Text) :
    without .balanced names css = deleting (Covered names css) css := by
  apply without_induction (motive := fun t left => left = deleting (Covered names t) t)
  · rfl
  · intro c t missing ih
    have first : ¬ Covered names (c :: t) 0 := by
      rw [covered_cons_iff missing]
      intro covered
      rcases covered with ⟨j, later, -⟩
      omega
    rw [deleting_cons, if_neg first, ih]
    congr 1
    apply deleting_congr
    intro i
    rw [covered_cons_iff missing]
    simp
  · intro name member rule rest isRule ih
    rw [deleting_append_of_gone rest fun i inside =>
      (covered_append_iff free member isRule).mpr (Or.inl inside), ih]
    apply deleting_congr
    intro i
    rw [covered_append_iff free member isRule]
    constructor
    · intro covered
      exact Or.inr ⟨i, rfl, covered⟩
    · rintro (inside | ⟨j, same, covered⟩)
      · omega
      · obtain rfl : i = j := by omega
        exact covered

end Rule

end RulePruner
