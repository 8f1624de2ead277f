import Mathlib.Data.List.TakeWhile
import RulePruner.Proofs.Json.Grammar

/-!
# Names and numbers in JSON

Whether a text is a number can be decided: its parts are found by the characters that they are made
of (`Json.isUnsigned_iff`). So can what a word stands for, be it a name or a number, and a token
that is written as a word is found in it (`Json.word?_of_form`).
-/

namespace RulePruner.Json

variable {t front back : Text} {p : Char → Bool}

instance : DecidablePred IsDigits := fun t =>
  decidable_of_iff (t ≠ [] ∧ t.all Char.isDigit) (by simp [IsDigits])

instance : DecidablePred IsWhole := fun t =>
  inferInstanceAs (Decidable (IsDigits t ∧ (t.head? = some '0' → t = ['0'])))

instance : DecidablePred IsFraction := fun t =>
  inferInstanceAs (Decidable (t = [] ∨ t.head? = some '.' ∧ IsDigits t.tail))

instance : DecidablePred IsExponent := fun t =>
  inferInstanceAs (Decidable (t = [] ∨ (t.head? = some 'e' ∨ t.head? = some 'E') ∧
    (IsDigits t.tail ∨ (t.tail.head? = some '+' ∨ t.tail.head? = some '-') ∧
      IsDigits t.tail.tail)))

/-- The characters of a fraction. -/
def inFraction (c : Char) : Bool := c = '.' || c.isDigit

theorem takeWhile_append_of_head? (all : ∀ c ∈ front, p c) (stop : ∀ c ∈ back.head?, ¬ p c) :
    (front ++ back).takeWhile p = front := by
  rw [List.takeWhile_append_of_pos all]
  cases back with
  | nil => simp
  | cons c back => simp [stop c rfl]

theorem dropWhile_append_of_head? (all : ∀ c ∈ front, p c) (stop : ∀ c ∈ back.head?, ¬ p c) :
    (front ++ back).dropWhile p = back := by
  rw [List.dropWhile_append_of_pos all]
  cases back with
  | nil => simp
  | cons c back => simp [stop c rfl]

theorem IsExponent.head?_eq (exponent : IsExponent t) :
    t = [] ∨ t.head? = some 'e' ∨ t.head? = some 'E' := by
  rcases exponent with none | ⟨mark, -⟩
  · exact Or.inl none
  · exact Or.inr mark

theorem forall_mem_of_head? {c : Char} (first : t.head? = some c) (holds : p c)
    (others : ∀ c ∈ t.tail, p c) : ∀ c ∈ t, p c := by
  cases t with
  | nil => cases first
  | cons d t =>
    obtain rfl := Option.some.inj first
    exact List.forall_mem_cons.mpr ⟨holds, others⟩

theorem IsFraction.inFraction (fraction : IsFraction t) : ∀ c ∈ t, inFraction c := by
  rcases fraction with rfl | ⟨point, digits⟩
  · simp
  · apply forall_mem_of_head? point rfl
    intro c member
    rw [Json.inFraction, digits.2 c member, Bool.or_true]

/-- The parts of a number are told apart by their characters. -/
theorem isUnsigned_iff :
    IsUnsigned t ↔ IsWhole (t.takeWhile Char.isDigit) ∧
      IsFraction ((t.dropWhile Char.isDigit).takeWhile inFraction) ∧
      IsExponent ((t.dropWhile Char.isDigit).dropWhile inFraction) := by
  constructor
  · rintro ⟨whole, fraction, exponent, isWhole, isFraction, isExponent, rfl⟩
    have stopFraction : ∀ c ∈ exponent.head?, ¬ inFraction c := by
      rcases isExponent.head?_eq with rfl | mark | mark
      · simp
      · simp [mark, inFraction]
      · simp [mark, inFraction]
    have stopWhole : ∀ c ∈ (fraction ++ exponent).head?, ¬ c.isDigit := by
      rcases isFraction with rfl | ⟨point, -⟩
      · intro c first digit
        apply stopFraction c first
        rw [inFraction, digit, Bool.or_true]
      · simp [List.head?_append, point]
    rw [List.append_assoc, takeWhile_append_of_head? isWhole.1.2 stopWhole,
      dropWhile_append_of_head? isWhole.1.2 stopWhole,
      takeWhile_append_of_head? isFraction.inFraction stopFraction,
      dropWhile_append_of_head? isFraction.inFraction stopFraction]
    exact ⟨isWhole, isFraction, isExponent⟩
  · rintro ⟨whole, fraction, exponent⟩
    refine ⟨_, _, _, whole, fraction, exponent, ?_⟩
    rw [List.append_assoc, List.takeWhile_append_dropWhile, List.takeWhile_append_dropWhile]

theorem isDigit_zeros (n : Nat) : ∀ c ∈ List.replicate n '0', c.isDigit := by
  intro c zero
  rw [List.eq_of_mem_replicate zero]
  rfl

theorem IsDigits.append_zeros (digits : IsDigits t) (n : Nat) :
    IsDigits (t ++ List.replicate n '0') :=
  ⟨List.append_ne_nil_of_left_ne_nil digits.1 _,
    List.forall_mem_append.mpr ⟨digits.2, isDigit_zeros n⟩⟩

theorem IsDigits.zeros_append (digits : IsDigits t) (n : Nat) :
    IsDigits (List.replicate n '0' ++ t) :=
  ⟨List.append_ne_nil_of_right_ne_nil _ digits.1,
    List.forall_mem_append.mpr ⟨isDigit_zeros n, digits.2⟩⟩

instance : DecidablePred IsUnsigned := fun _ => decidable_of_iff _ isUnsigned_iff.symm

instance : DecidablePred IsNumber := fun t =>
  inferInstanceAs (Decidable (IsUnsigned t ∨ t.head? = some '-' ∧ IsUnsigned t.tail))

/-- The characters of names and numbers. -/
def isWordChar (c : Char) : Bool := c.isAlphanum || c = '+' || c = '-' || c = '.'

/-- The token that is written as a word: a name or a number. -/
def word? (word : Text) : Option Token :=
  if word = "null".toList then some .null
  else if word = "true".toList then some (.bool true)
  else if word = "false".toList then some (.bool false)
  else if IsNumber word then some (.number word)
  else none

variable {token : Token} {word : Text}

/-- A token that is found in a word is written like that. -/
theorem form_of_word? (found : word? word = some token) : token.Form word := by
  unfold word? at found
  split at found
  · next null => exact Option.some.inj found ▸ null
  split at found
  · next true' => exact Option.some.inj found ▸ true'
  split at found
  · next false' => exact Option.some.inj found ▸ false'
  split at found
  · next number => exact Option.some.inj found ▸ ⟨number, rfl⟩
  · cases found

theorem IsDigits.isWordChar (digits : IsDigits t) : ∀ c ∈ t, isWordChar c := by
  intro c member
  simp [Json.isWordChar, Char.isAlphanum, digits.2 c member]

theorem IsFraction.isWordChar (fraction : IsFraction t) : ∀ c ∈ t, isWordChar c := by
  rcases fraction with rfl | ⟨point, digits⟩
  · simp
  · exact forall_mem_of_head? point rfl digits.isWordChar

theorem IsExponent.isWordChar (exponent : IsExponent t) : ∀ c ∈ t, isWordChar c := by
  rcases exponent with rfl | ⟨mark, digits⟩
  · simp
  · have others : ∀ c ∈ t.tail, Json.isWordChar c := by
      rcases digits with digits | ⟨plus | minus, digits⟩
      · exact digits.isWordChar
      · exact forall_mem_of_head? plus rfl digits.isWordChar
      · exact forall_mem_of_head? minus rfl digits.isWordChar
    rcases mark with small | capital
    · exact forall_mem_of_head? small rfl others
    · exact forall_mem_of_head? capital rfl others

theorem IsUnsigned.isWordChar (number : IsUnsigned t) : ∀ c ∈ t, isWordChar c := by
  obtain ⟨whole, fraction, exponent, isWhole, isFraction, isExponent, rfl⟩ := number
  rw [List.forall_mem_append, List.forall_mem_append]
  exact ⟨⟨isWhole.1.isWordChar, isFraction.isWordChar⟩, isExponent.isWordChar⟩

theorem IsNumber.isWordChar (number : IsNumber t) : ∀ c ∈ t, isWordChar c := by
  rcases number with unsigned | ⟨minus, unsigned⟩
  · exact unsigned.isWordChar
  · exact forall_mem_of_head? minus rfl unsigned.isWordChar

/-- The written form of a token that is neither a sign nor a string is a word. -/
theorem word?_of_form (form : token.Form t) (other : ∀ m, token ≠ .mark m)
    (other' : ∀ value, token ≠ .string value) :
    word? t = some token ∧ t ≠ [] ∧ ∀ c ∈ t, isWordChar c := by
  cases token with
  | mark m => exact absurd rfl (other m)
  | string value => exact absurd rfl (other' value)
  | null =>
    obtain rfl := form
    exact ⟨rfl, by decide, List.all_eq_true.mp rfl⟩
  | bool value =>
    obtain rfl := form
    cases value <;> exact ⟨rfl, by decide, List.all_eq_true.mp rfl⟩
  | number token =>
    obtain ⟨number, rfl⟩ := form
    have name (name : Text) (wrong : ¬ IsNumber name) : t ≠ name := by
      rintro rfl
      exact wrong number
    refine ⟨?_, ?_, ?_⟩
    · unfold word?
      rw [if_neg (name _ (by decide)), if_neg (name _ (by decide)), if_neg (name _ (by decide)),
        if_pos number]
    · exact name [] (by decide)
    · exact number.isWordChar

end RulePruner.Json
