import RulePruner.Proofs.Json.Reader

/-!
# Written JSON

The written form of a value is a text of the value by the grammar, if its numbers are numbers
(`Json.textOf_write`), so the reader reads it back as the value (`Json.read?_write`). Quotes,
backslashes and control characters are escaped by forms that stand for them, and every other
character stands for itself.
-/

namespace RulePruner.Json

/-- The numbers of a value are all written as numbers. -/
def Valid (value : Json) : Prop := ∀ token, Token.number token ∈ value.tokens → IsNumber token

variable {token : Text} {value : Json} {items : List Json} {fields : List (Text × Json)}

theorem intercalate_cons (part : List Token) (parts : List (List Token)) :
    [Token.mark .comma].intercalate (part :: parts) =
      part ++ parts.flatMap (Token.mark .comma :: ·) := by
  induction parts generalizing part with
  | nil => simp
  | cons part' parts ih =>
    rw [List.intercalate_cons_cons, ih]
    simp

theorem number_mem_intercalate {parts : List (List Token)} :
    Token.number token ∈ [Token.mark .comma].intercalate parts ↔
      ∃ part ∈ parts, Token.number token ∈ part := by
  cases parts with
  | nil => simp
  | cons part parts => simp [intercalate_cons]

theorem valid_array_iff : Valid (array items) ↔ ∀ item ∈ items, Valid item := by
  have inside (token : Text) : Token.number token ∈ (array items).tokens ↔
      ∃ item ∈ items, Token.number token ∈ item.tokens := by
    simp [tokens, itemTokens_eq_map, number_mem_intercalate]
  simp only [Valid, inside]
  grind

theorem valid_object_iff : Valid (object fields) ↔ ∀ field ∈ fields, Valid field.2 := by
  have inside (token : Text) : Token.number token ∈ (object fields).tokens ↔
      ∃ field ∈ fields, Token.number token ∈ field.2.tokens := by
    simp [tokens, fieldTokens_eq_map, number_mem_intercalate]
  simp only [Valid, inside]
  grind

theorem valid_null : Valid null := by simp [Valid, tokens]

theorem valid_bool (value : Bool) : Valid (bool value) := by simp [Valid, tokens]

theorem valid_string (value : Text) : Valid (string value) := by simp [Valid, tokens]

theorem valid_number_iff : Valid (number token) ↔ IsNumber token := by
  simp [Valid, tokens]

/-- A character is escaped by one of its forms. -/
theorem charForm_escapeChar (c : Char) : CharForm c (escapeChar c) := by
  have control : ∀ n < 0x20, IsCode (hexDigits (Char.ofNat n)) n := by
    unfold IsCode
    decide
  unfold escapeChar
  split_ifs with quote backslash _ _ _ _ _ low
  iterate 7 exact .short (by simp [*, shortEscapes])
  · have code := control c.toNat low
    rw [Char.ofNat_toNat] at code
    exact .code code
  · apply CharForm.plain
    simp [isPlain, quote, backslash]
    omega

theorem charsForm_flatMap (t : Text) : CharsForm t (t.flatMap escapeChar) := by
  induction t with
  | nil => exact .nil
  | cons c t ih => exact .cons (charForm_escapeChar c) ih

theorem form_quote (t : Text) : (Token.string t).Form (quote t) :=
  ⟨_, charsForm_flatMap t, rfl⟩

theorem isSpace_lineStart (depth : Nat) : ∀ c ∈ lineStart depth, isSpace c := by
  intro c member
  rcases List.mem_cons.mp member with rfl | member
  · rfl
  · rw [List.eq_of_mem_replicate member]
    rfl

/-- The later items of an array, each behind a comma. -/
theorem layout_writeItems {depth : Nat}
    (layout : ∀ item ∈ items, Layout item.tokens (item.writeAt depth)) :
    Layout ((itemTokens items).flatMap (Token.mark .comma :: ·)) (writeItems depth items) := by
  induction items with
  | nil => exact .nil
  | cons item items ih =>
    obtain ⟨first, others⟩ := List.forall_mem_cons.mp layout
    have written := (first.append (ih others)).spaces (isSpace_lineStart depth)
    simpa [itemTokens, writeItems, Mark.char] using written.mark .comma

theorem layout_field {depth : Nat} (key : Text) (layout : Layout value.tokens (value.writeAt depth)) :
    Layout (.string key :: .mark .colon :: value.tokens) (quote key ++ ':' :: ' ' :: value.writeAt depth) :=
  .cons (form_quote key) (.mark .colon (.space rfl layout))

/-- The later fields of an object, each behind a comma. -/
theorem layout_writeFields {depth : Nat}
    (layout : ∀ field ∈ fields, Layout field.2.tokens (field.2.writeAt depth)) :
    Layout ((fieldTokens fields).flatMap (Token.mark .comma :: ·)) (writeFields depth fields) := by
  induction fields with
  | nil => exact .nil
  | cons field fields ih =>
    obtain ⟨first, others⟩ := List.forall_mem_cons.mp layout
    have written := ((layout_field field.1 first).append (ih others)).spaces (isSpace_lineStart depth)
    simpa [fieldTokens, writeFields, Mark.char] using written.mark .comma

/-- What stands between two signs on lines of its own. -/
theorem layout_enclosed {tokens : List Token} {t : Text} (layout : Layout tokens t)
    (first last : Mark) (depth : Nat) :
    Layout (.mark first :: (tokens ++ [.mark last]))
      (first.char :: (lineStart (depth + 1) ++ (t ++ (lineStart depth ++ [last.char])))) := by
  have closed := (Layout.nil.mark last).spaces (isSpace_lineStart depth)
  exact ((layout.append closed).spaces (isSpace_lineStart (depth + 1))).mark first

/-- A value at any depth. -/
theorem layout_writeAt (valid : value.Valid) (depth : Nat) :
    Layout value.tokens (value.writeAt depth) := by
  induction value using Json.induction generalizing depth with
  | null => exact .single rfl
  | bool value => cases value <;> exact .single rfl
  | number token => exact .single ⟨valid_number_iff.mp valid, rfl⟩
  | string value => exact .single (form_quote value)
  | array items ih =>
    cases items with
    | nil => exact (Layout.nil.mark .closeArray).mark .openArray
    | cons item items =>
      have inside : ∀ value ∈ item :: items, Layout value.tokens (value.writeAt (depth + 1)) :=
        fun value member => ih value member (valid_array_iff.mp valid value member) (depth + 1)
      obtain ⟨first, others⟩ := List.forall_mem_cons.mp inside
      have written := layout_enclosed (first.append (layout_writeItems others)) .openArray .closeArray depth
      simpa [tokens, itemTokens, intercalate_cons, writeAt, Mark.char] using written
  | object fields ih =>
    cases fields with
    | nil => exact (Layout.nil.mark .closeObject).mark .openObject
    | cons field fields =>
      have inside : ∀ entry ∈ field :: fields, Layout entry.2.tokens (entry.2.writeAt (depth + 1)) :=
        fun entry member => ih entry member (valid_object_iff.mp valid entry member) (depth + 1)
      obtain ⟨first, others⟩ := List.forall_mem_cons.mp inside
      have written := layout_enclosed ((layout_field field.1 first).append (layout_writeFields others))
        .openObject .closeObject depth
      simpa [tokens, fieldTokens, intercalate_cons, writeAt, Mark.char] using written

/-- What is written is a text of the value. -/
theorem textOf_write (valid : value.Valid) : TextOf value value.write := layout_writeAt valid 0

/-- What is written is read back. -/
theorem read?_write (valid : value.Valid) : read? value.write = some value :=
  read?_eq_some_iff.mpr (textOf_write valid)

end RulePruner.Json
