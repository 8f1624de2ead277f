import Mathlib.Algebra.Ring.Nat
import Mathlib.Data.List.SplitBy
import Mathlib.Data.List.TakeWhile
import RulePruner.Proofs.Text.Newline

/-!
# Runs of newlines

A text falls into runs, which are its longest stretches of one and the same character. Capping takes
from each run of newlines what exceeds two (`Text.length_collapse_add_newlineExcess`), so it changes
nothing exactly if no three newlines stand in a row (`Text.collapse_eq_self_iff`).
-/

namespace RulePruner.Text

/-- The longest stretches of one and the same character, in order. -/
def runs (t : Text) : List Text := t.splitBy (· == ·)

/-- The lengths of the runs of newlines, in order. -/
def newlineRuns (t : Text) : List Nat :=
  ((runs t).filter fun run => run.head? = some '\n').map List.length

/-- The number of newlines over two, summed up over the runs of three newlines and more. -/
def newlineExcess (t : Text) : Nat :=
  (((newlineRuns t).filter fun size => 3 ≤ size).map fun size => size - 2).sum

variable {c : Char} {rest : Text}

theorem runs_replicate_append (k : Nat) (other : rest.head? ≠ some c) :
    runs (List.replicate (k + 1) c ++ rest) = List.replicate (k + 1) c :: runs rest := by
  have apart : ∀ x ∈ (List.replicate (k + 1) c).getLast?, ∀ y ∈ rest.head?, (x == y) = false := by
    intro x last y first
    obtain rfl : c = x := by simpa [List.getLast?_replicate] using last
    rw [beq_eq_false_iff_ne]
    rintro rfl
    exact other first
  have whole : (List.replicate (k + 1) c).splitBy (· == ·) = [List.replicate (k + 1) c] :=
    List.splitBy_of_isChain (by simp) (List.isChain_replicate_of_rel _ (by simp))
  rw [runs, List.splitBy_append apart, whole, List.singleton_append, runs]

/-- A law of texts can be shown one run at a time. -/
theorem runs_induction {motive : Text → Prop} (nil : motive [])
    (run : ∀ c k rest, rest.head? ≠ some c → motive rest →
      motive (List.replicate (k + 1) c ++ rest)) (t : Text) : motive t := by
  induction size : t.length using Nat.strongRecOn generalizing t with
  | ind size ih =>
    subst size
    cases t with
    | nil => exact nil
    | cons c t =>
      have same : t.takeWhile (· == c) = List.replicate (t.takeWhile (· == c)).length c :=
        List.eq_replicate_of_mem fun d member => by
          simpa using List.mem_takeWhile_imp member
      have other : (t.dropWhile (· == c)).head? ≠ some c := by
        intro first
        have := List.head?_dropWhile_not (· == c) t
        rw [first] at this
        simp at this
      have shorter : (t.dropWhile (· == c)).length < (c :: t).length :=
        Nat.lt_succ_of_le (List.length_dropWhile_le _ _)
      have whole := run c (t.takeWhile (· == c)).length _ other (ih _ shorter _ rfl)
      rwa [List.replicate_succ, ← same, List.cons_append, List.takeWhile_append_dropWhile] at whole

theorem capNewlines_replicate_append (room k : Nat) (other : rest.head? ≠ some '\n') :
    capNewlines room (List.replicate k '\n' ++ rest) =
      List.replicate (min k room) '\n' ++ capNewlines 2 rest := by
  induction k generalizing room with
  | zero =>
    cases rest with
    | nil => simp
    | cons d rest =>
      have shown : d ≠ '\n' := by simpa using other
      simp [capNewlines_other _ rest shown]
  | succ k ih =>
    rw [List.replicate_succ, List.cons_append]
    cases room with
    | zero => simpa [capNewlines_zero_newline] using ih 0
    | succ room =>
      rw [capNewlines_succ_newline, ih, Nat.add_min_add_right, List.replicate_succ,
        List.cons_append]

/-- A run of newlines is cut to two, and any other run is left as it is. -/
theorem collapse_replicate_append (k : Nat) (other : rest.head? ≠ some c) :
    collapse (List.replicate k c ++ rest) =
      List.replicate (if c = '\n' then min k 2 else k) c ++ collapse rest := by
  by_cases newline : c = '\n'
  · subst newline
    rw [if_pos rfl]
    exact capNewlines_replicate_append 2 k other
  · rw [if_neg newline]
    apply capNewlines_append_of_not_mem
    rw [List.mem_replicate]
    exact fun member => newline member.2.symm

theorem newlineExcess_replicate_append (k : Nat) (other : rest.head? ≠ some c) :
    newlineExcess (List.replicate (k + 1) c ++ rest) =
      (if c = '\n' then k + 1 - 2 else 0) + newlineExcess rest := by
  unfold newlineExcess newlineRuns
  rw [runs_replicate_append k other]
  by_cases newline : c = '\n'
  · subst newline
    by_cases long : 3 ≤ k + 1
    · simp [List.replicate_succ, long]
    · have short : k + 1 - 2 = 0 := by omega
      simp [List.replicate_succ, long, short]
  · simp [List.replicate_succ, newline]

/-- Capping takes from a text what exceeds two in its runs of newlines. -/
theorem length_collapse_add_newlineExcess (t : Text) :
    (collapse t).length + newlineExcess t = t.length := by
  induction t using runs_induction with
  | nil => rfl
  | run c k rest other ih =>
    rw [collapse_replicate_append (k + 1) other, newlineExcess_replicate_append k other,
      List.length_append, List.length_append, List.length_replicate, List.length_replicate]
    split <;> omega

/-- A cap with `room` leaves a text as it is exactly if the text starts with no more newlines than
there is room for, and nowhere has three in a row. -/
theorem capNewlines_eq_self_iff {room : Nat} (small : room ≤ 2) (t : Text) :
    capNewlines room t = t ↔
      ¬ List.replicate (room + 1) '\n' <+: t ∧ ¬ ['\n', '\n', '\n'] <:+: t := by
  induction t generalizing room with
  | nil => simp [List.replicate_succ]
  | cons c t ih =>
    rw [List.infix_cons_iff]
    by_cases newline : c = '\n'
    · subst newline
      cases room with
      | zero =>
        have shorter : (capNewlines 0 t).length < ('\n' :: t).length :=
          Nat.lt_succ_of_le (capNewlines_sublist 0 t).length_le
        rw [capNewlines_zero_newline]
        constructor
        · intro same
          rw [same] at shorter
          exact absurd shorter (Nat.lt_irrefl _)
        · intro plain
          exact absurd ⟨t, rfl⟩ plain.1
      | succ room =>
        have long : List.replicate (room + 2) '\n' <+: '\n' :: t ↔
            List.replicate (room + 1) '\n' <+: t := by
          rw [List.replicate_succ, List.prefix_cons_inj]
        have triple : ['\n', '\n', '\n'] <+: '\n' :: t → List.replicate (room + 1) '\n' <+: t := by
          intro start
          have pair : List.replicate 2 '\n' <+: t := by simpa using start
          exact List.IsPrefix.trans ⟨List.replicate (2 - (room + 1)) '\n', by
            rw [List.replicate_append_replicate, Nat.add_sub_cancel' small]⟩ pair
        rw [capNewlines_succ_newline, List.cons_inj_right, ih (by omega), long]
        tauto
    · have apart (k : Nat) : ¬ List.replicate (k + 1) '\n' <+: c :: t := by
        rw [List.replicate_succ, List.cons_prefix_cons]
        exact fun start => newline start.1.symm
      have pair : ¬ List.replicate 3 '\n' <+: t ∨ ['\n', '\n', '\n'] <:+: t := by
        by_cases start : List.replicate 3 '\n' <+: t
        · exact Or.inr start.isInfix
        · exact Or.inl start
      rw [capNewlines_other room t newline, List.cons_inj_right, ih (Nat.le_refl 2)]
      have here := apart room
      have triple : ¬ ['\n', '\n', '\n'] <+: c :: t := apart 2
      tauto

/-- Capping leaves a text as it is exactly if no three newlines stand in a row. -/
theorem collapse_eq_self_iff (t : Text) : collapse t = t ↔ ¬ ['\n', '\n', '\n'] <:+: t := by
  rw [collapse, capNewlines_eq_self_iff (Nat.le_refl 2)]
  constructor
  · exact And.right
  · intro plain
    exact ⟨fun start => plain start.isInfix, plain⟩

theorem newlineExcess_eq_zero_iff (t : Text) :
    newlineExcess t = 0 ↔ ¬ ['\n', '\n', '\n'] <:+: t := by
  have size := length_collapse_add_newlineExcess t
  rw [← collapse_eq_self_iff]
  constructor
  · intro none_
    exact (collapse_sublist t).eq_of_length (by omega)
  · intro same
    rw [same] at size
    omega

end RulePruner.Text
