import RulePruner.Proofs.Json.Word
import RulePruner.Report

/-!
# Numbers of a report

The numeral of a natural number is a number in JSON, and so is whatever a double is written as in a
report: the digits of its decimal start with zero only if it is zero (`Report.exists_number_eq`).
-/

namespace RulePruner

open Json

namespace Decimal

variable {shown : Text} {exponent : Int}

theorem isDigits_numeral (n : Nat) : IsDigits (numeral n) :=
  ⟨Nat.toDigits_ne_nil, fun _ member => Nat.isDigit_of_mem_toDigits (by omega) (by omega) member⟩

/-- The numeral of a positive number does not start with zero. -/
theorem head?_numeral {n : Nat} (positive : 0 < n) : (numeral n).head? ≠ some '0' := by
  induction n using Nat.strongRecOn with
  | ind n ih =>
    unfold numeral
    by_cases small : n < 10
    · rw [Nat.toDigits_of_lt_base small]
      have digits : ∀ n < 10, 0 < n → [n.digitChar].head? ≠ some '0' := by decide
      exact digits n small positive
    · rw [Nat.toDigits_of_base_le (by omega) (by omega)]
      have front := ih (n / 10) (by omega) (by omega)
      intro first
      apply front
      cases shown : numeral (n / 10) with
      | nil => exact absurd shown (isDigits_numeral _).1
      | cons c t =>
        rw [numeral] at shown
        rw [shown] at first
        exact first

theorem isWhole_numeral (n : Nat) : IsWhole (numeral n) := by
  refine ⟨isDigits_numeral n, fun first => ?_⟩
  obtain rfl : n = 0 := by
    by_contra positive
    exact head?_numeral (Nat.pos_of_ne_zero positive) first
  rfl

theorem isNumber_numeral (n : Nat) : IsNumber (numeral n) :=
  Or.inl ⟨numeral n, [], [], isWhole_numeral n, Or.inl rfl, Or.inl rfl, by simp⟩

namespace Layout

/-- With its point in place a decimal is a number, if no zeros are put behind a zero. -/
theorem isUnsigned_positional (digits : IsDigits shown)
    (first : shown.head? = some '0' → shown = ['0'] ∧ exponent = 0) :
    IsUnsigned (positional shown exponent) := by
  have size := List.length_pos_iff.mpr digits.1
  unfold positional
  simp only
  split
  · refine ⟨shown ++ List.replicate exponent.toNat '0', ['.', '0'], [], ⟨?_, ?_⟩, ?_, Or.inl rfl, by simp⟩
    · exact digits.append_zeros _
    · rw [List.head?_append_of_ne_nil _ digits.1]
      intro zero
      obtain ⟨rfl, rfl⟩ := first zero
      rfl
    · decide
  · next negative =>
    split
    · next inside =>
      obtain ⟨places, same⟩ : ∃ places : Nat, (shown.length : Int) + exponent = places :=
        ⟨_, (Int.toNat_of_nonneg (Int.le_of_lt inside)).symm⟩
      have within : 0 < places ∧ places < shown.length := by omega
      have front : shown.take places ≠ [] := by
        rw [← List.length_pos_iff, List.length_take]
        omega
      have back : shown.drop places ≠ [] := by
        rw [← List.length_pos_iff, List.length_drop]
        omega
      rw [same, Int.toNat_natCast]
      refine ⟨shown.take places, '.' :: shown.drop places, [], ⟨⟨front, ?_⟩, ?_⟩, ?_, Or.inl rfl, by simp⟩
      · exact fun c member => digits.2 c (List.mem_of_mem_take member)
      · intro zero
        rw [List.head?_take, if_neg (by omega)] at zero
        have point := (first zero).2
        omega
      · exact Or.inr ⟨rfl, back, fun c member => digits.2 c (List.mem_of_mem_drop member)⟩
    · refine ⟨['0'], '.' :: (List.replicate (-((shown.length : Int) + exponent)).toNat '0' ++ shown),
        [], by decide, Or.inr ⟨rfl, digits.zeros_append _⟩, Or.inl rfl, by simp⟩

/-- With an exponent a decimal is a number. -/
theorem isUnsigned_scientific (digits : IsDigits shown) (magnitude : Int) :
    IsUnsigned (scientific shown magnitude) := by
  obtain ⟨c, places, rfl⟩ := List.exists_cons_of_ne_nil digits.1
  obtain ⟨digit, others⟩ := List.forall_mem_cons.mp digits.2
  refine ⟨[c], if places.isEmpty then [] else '.' :: places,
    'e' :: (if magnitude < 0 then '-' else '+') :: numeral magnitude.natAbs, ?_, ?_, ?_, ?_⟩
  · exact ⟨⟨by simp, by simpa using digit⟩, fun zero => by simpa using zero⟩
  · split
    · exact Or.inl rfl
    · next some => exact Or.inr ⟨rfl, by simpa using some, others⟩
  · refine Or.inr ⟨Or.inl rfl, Or.inr ⟨?_, isDigits_numeral _⟩⟩
    split
    · exact Or.inr rfl
    · exact Or.inl rfl
  · simp [scientific]

/-- A decimal is written as a number, if it is positive or zero in its simplest form. -/
theorem isUnsigned_write (layout : Layout) {decimal : Decimal}
    (proper : 0 < decimal.digits ∨ decimal = ⟨0, 0⟩) : IsUnsigned (layout.write decimal) := by
  have digits := isDigits_numeral decimal.digits
  unfold write
  simp only
  split
  · apply isUnsigned_positional digits
    intro zero
    rcases proper with positive | rfl
    · exact absurd zero (head?_numeral positive)
    · exact ⟨rfl, rfl⟩
  · exact isUnsigned_scientific digits _

end Layout

namespace ReadingInterval

theorem low_pos {mantissa : Nat} (positive : 0 < mantissa) (exponent : Int) :
    0 < (ReadingInterval.of mantissa exponent).low := by
  simp only [ReadingInterval.of]
  split <;> omega

/-- Zero is not read as a positive double. -/
theorem contains_zero {interval : ReadingInterval} (positive : 0 < interval.low) (power : Int) :
    interval.contains power 0 = false := by
  have quarter : 0 < (interval.scales power).1 :=
    Nat.mul_pos (Nat.pow_pos Nat.two_pos) (Nat.pow_pos (by omega))
  have above := Nat.mul_pos positive quarter
  simp only [contains, Nat.zero_mul]
  split
  · simp [Nat.not_le.mpr above]
  · simp

end ReadingInterval

/-- The shortest decimal of a double is positive, unless none is found. -/
theorem shortest_proper {mantissa : Nat} (positive : 0 < mantissa) (exponent : Int) :
    0 < (shortest mantissa exponent).digits ∨ shortest mantissa exponent = ⟨0, 0⟩ := by
  unfold shortest
  simp only
  cases found : List.findSome? _ _ with
  | none => exact Or.inr rfl
  | some decimal =>
    left
    obtain ⟨step, -, found⟩ := List.exists_of_findSome?_eq_some found
    obtain ⟨n, nearest, rfl⟩ := Option.map_eq_some_iff.mp found
    have inside := contains_of_nearest? nearest
    apply Nat.pos_of_ne_zero
    rintro rfl
    have apart := ReadingInterval.low_pos positive exponent
    rw [ReadingInterval.contains_zero apart] at inside
    exact absurd inside Bool.false_ne_true

end Decimal

namespace Report

open Decimal

/-- A double is written as null or as a number. -/
theorem exists_number_eq (x : Float) :
    ∃ token? : Option Text, number x = token?.elim .null .number ∧
      ∀ token ∈ token?, IsNumber token := by
  unfold number
  cases Double.ofFloat x with
  | notANumber => exact ⟨none, rfl, by simp⟩
  | infinite negative => exact ⟨none, rfl, by simp⟩
  | finite negative mantissa exponent =>
    refine ⟨some _, rfl, fun token member => ?_⟩
    obtain rfl := Option.some.inj member
    have unsigned : IsUnsigned (numberLayout.write
        (if mantissa = 0 then ⟨0, 0⟩ else shortest mantissa exponent)) := by
      apply Layout.isUnsigned_write
      split
      · exact Or.inr rfl
      · next some => exact shortest_proper (Nat.pos_of_ne_zero some) exponent
    cases negative with
    | false => exact Or.inl unsigned
    | true => exact Or.inr ⟨rfl, unsigned⟩

end Report

end RulePruner
