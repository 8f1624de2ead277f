import Mathlib.Data.List.Chain
import RulePruner.Json

/-!
# The grammar of JSON

A text stands for a value if it is made of the tokens of the value in their order, each in one of
its written forms, with spaces anywhere between them (`Json.TextOf`). A character of a string has up
to three written forms: itself, a short escape, and an escape by its code, for which a character
beyond the first 0x10000 takes the two codes of its surrogates; a surrogate alone stands for no
character. A number stands for itself.
-/

namespace RulePruner.Json

/-- The signs that give a text its structure. -/
inductive Mark where
  | openArray
  | closeArray
  | openObject
  | closeObject
  | colon
  | comma
  deriving DecidableEq, Repr

/-- A sign as it is written. -/
def Mark.char : Mark → Char
  | openArray => '['
  | closeArray => ']'
  | openObject => '{'
  | closeObject => '}'
  | colon => ':'
  | comma => ','

/-- What a text is made of. -/
inductive Token where
  | mark (mark : Mark)
  | null
  | bool (value : Bool)
  | number (token : Text)
  | string (value : Text)
  deriving DecidableEq, Repr

mutual

/-- The tokens of a value. -/
def tokens : Json → List Token
  | null => [.null]
  | bool value => [.bool value]
  | number token => [.number token]
  | string value => [.string value]
  | array items =>
    .mark .openArray :: ([.mark .comma].intercalate (itemTokens items) ++ [.mark .closeArray])
  | object fields =>
    .mark .openObject :: ([.mark .comma].intercalate (fieldTokens fields) ++ [.mark .closeObject])

/-- The tokens of each item of an array. -/
def itemTokens : List Json → List (List Token)
  | [] => []
  | item :: items => tokens item :: itemTokens items

/-- The tokens of each field of an object. -/
def fieldTokens : List (Text × Json) → List (List Token)
  | [] => []
  | (key, value) :: fields => (.string key :: .mark .colon :: tokens value) :: fieldTokens fields

end

/-- The characters that may stand between tokens. -/
def isSpace (c : Char) : Bool := c = ' ' || c = '\t' || c = '\n' || c = '\r'

/-- At least one digit and nothing else. -/
def IsDigits (t : Text) : Prop := t ≠ [] ∧ ∀ c ∈ t, c.isDigit

/-- The digits in front of the point, of which the first is zero only if it is the only one. -/
def IsWhole (t : Text) : Prop := IsDigits t ∧ (t.head? = some '0' → t = ['0'])

/-- The point and the digits behind it, or nothing. -/
def IsFraction (t : Text) : Prop := t = [] ∨ t.head? = some '.' ∧ IsDigits t.tail

/-- The exponent, which may have a sign, or nothing. -/
def IsExponent (t : Text) : Prop :=
  t = [] ∨ (t.head? = some 'e' ∨ t.head? = some 'E') ∧
    (IsDigits t.tail ∨ (t.tail.head? = some '+' ∨ t.tail.head? = some '-') ∧ IsDigits t.tail.tail)

/-- A number without a sign, of which the fraction and the exponent can be left out. -/
def IsUnsigned (t : Text) : Prop :=
  ∃ whole fraction exponent, IsWhole whole ∧ IsFraction fraction ∧ IsExponent exponent ∧
    t = whole ++ fraction ++ exponent

/-- A number. -/
def IsNumber (t : Text) : Prop := IsUnsigned t ∨ t.head? = some '-' ∧ IsUnsigned t.tail

/-- The value of a digit in base sixteen. -/
def hexValue? (c : Char) : Option Nat :=
  if c.isDigit then some (c.toNat - '0'.toNat)
  else if 'a' ≤ c ∧ c ≤ 'f' then some (c.toNat - 'a'.toNat + 10)
  else if 'A' ≤ c ∧ c ≤ 'F' then some (c.toNat - 'A'.toNat + 10)
  else none

/-- The code that digits in base sixteen stand for. -/
def hexCode? (digits : Text) : Option Nat :=
  digits.foldlM (fun code c => (hexValue? c).map (16 * code + ·)) 0

/-- Four digits in base sixteen. -/
def IsCode (digits : Text) (code : Nat) : Prop := digits.length = 4 ∧ hexCode? digits = some code

/-- The letters of the short escapes, with what they stand for. -/
def shortEscapes : List (Char × Char) :=
  [('"', '"'), ('\\', '\\'), ('/', '/'), ('b', '\x08'), ('f', '\x0c'), ('n', '\n'), ('r', '\r'),
   ('t', '\t')]

/-- The characters that stand for themselves in a string. -/
def isPlain (c : Char) : Bool := 0x20 ≤ c.toNat && c ≠ '"' && c ≠ '\\'

/-- The least code that can be the first one of a pair of surrogates. -/
def firstHigh : Nat := 0xd800

/-- The least code that can be the second one of a pair of surrogates. -/
def firstLow : Nat := 0xdc00

/-- How many surrogates there are of either kind. -/
def surrogates : Nat := 0x400

/-- The written forms of a character of a string. -/
inductive CharForm : Char → Text → Prop
  | plain {c : Char} : isPlain c → CharForm c [c]
  | short {letter c : Char} : (letter, c) ∈ shortEscapes → CharForm c ['\\', letter]
  | code {c : Char} {digits : Text} :
      IsCode digits c.toNat → CharForm c ('\\' :: 'u' :: digits)
  | pair {c : Char} {digits digits' : Text} {high low : Nat} :
      high < surrogates → low < surrogates →
      IsCode digits (firstHigh + high) → IsCode digits' (firstLow + low) →
      c.toNat = 0x10000 + surrogates * high + low →
      CharForm c ('\\' :: 'u' :: digits ++ '\\' :: 'u' :: digits')

/-- The written forms of the characters of a string, one after another. -/
inductive CharsForm : Text → Text → Prop
  | nil : CharsForm [] []
  | cons {c : Char} {t form forms : Text} :
      CharForm c form → CharsForm t forms → CharsForm (c :: t) (form ++ forms)

/-- The written forms of a token. -/
def Token.Form : Token → Text → Prop
  | mark m, form => form = [m.char]
  | null, form => form = "null".toList
  | bool value, form => form = if value then "true".toList else "false".toList
  | number token, form => IsNumber token ∧ form = token
  | string value, form => ∃ forms, CharsForm value forms ∧ form = '"' :: (forms ++ ['"'])

/-- Tokens in their written forms, with spaces in any place between them. -/
inductive Layout : List Token → Text → Prop
  | nil : Layout [] []
  | space {tokens : List Token} {c : Char} {t : Text} :
      isSpace c → Layout tokens t → Layout tokens (c :: t)
  | cons {token : Token} {tokens : List Token} {form t : Text} :
      token.Form form → Layout tokens t → Layout (token :: tokens) (form ++ t)

/-- A text stands for a value. -/
def TextOf (value : Json) (t : Text) : Prop := Layout value.tokens t

/-- Values by the values they are made of. -/
@[elab_as_elim]
theorem induction {motive : Json → Prop} (null : motive null) (bool : ∀ value, motive (bool value))
    (number : ∀ token, motive (number token)) (string : ∀ value, motive (string value))
    (array : ∀ items, (∀ item ∈ items, motive item) → motive (array items))
    (object : ∀ fields, (∀ field ∈ fields, motive field.2) → motive (object fields)) :
    ∀ value, motive value
  | .null => null
  | .bool value => bool value
  | .number token => number token
  | .string value => string value
  | .array items =>
    array items fun item _ => induction null bool number string array object item
  | .object fields =>
    object fields fun field member =>
      have smaller : sizeOf field.2 < sizeOf fields := by
        have inside := List.sizeOf_lt_of_mem member
        have part : sizeOf field = 1 + sizeOf field.1 + sizeOf field.2 := rfl
        omega
      induction null bool number string array object field.2
termination_by value => sizeOf value

variable {token : Token} {tokens later : List Token} {items : List Json} {fields : List (Text × Json)}
  {m : Mark} {c : Char} {s t : Text}

theorem itemTokens_eq_map (items : List Json) : itemTokens items = items.map Json.tokens := by
  induction items with
  | nil => rfl
  | cons item items ih => rw [itemTokens, List.map_cons, ih]

theorem fieldTokens_eq_map (fields : List (Text × Json)) :
    fieldTokens fields =
      fields.map fun field => .string field.1 :: .mark .colon :: field.2.tokens := by
  induction fields with
  | nil => rfl
  | cons field fields ih => rw [fieldTokens, List.map_cons, ih]

theorem Layout.append (layout : Layout tokens s) (layout' : Layout later t) :
    Layout (tokens ++ later) (s ++ t) := by
  induction layout with
  | nil => exact layout'
  | space blank layout ih => exact .space blank ih
  | cons form layout ih =>
    rw [List.append_assoc]
    exact .cons form ih

theorem Layout.single (form : token.Form t) : Layout [token] t := by
  have layout := Layout.cons form .nil
  rwa [List.append_nil] at layout

theorem Layout.spaces (blanks : ∀ c ∈ s, isSpace c) (layout : Layout tokens t) :
    Layout tokens (s ++ t) := by
  induction s with
  | nil => exact layout
  | cons c s ih =>
    have blank := blanks c List.mem_cons_self
    exact .space blank (ih fun c member => blanks c (List.mem_cons_of_mem _ member))

/-- A sign is written in one way. -/
theorem Layout.mark (m : Mark) (layout : Layout tokens t) :
    Layout (.mark m :: tokens) (m.char :: t) := by
  have form : (Token.mark m).Form [m.char] := rfl
  exact .cons form layout

theorem CharsForm.append {value value' : Text} (forms : CharsForm value s)
    (forms' : CharsForm value' t) : CharsForm (value ++ value') (s ++ t) := by
  induction forms with
  | nil => exact forms'
  | cons form forms ih =>
    rw [List.append_assoc]
    exact .cons form ih

theorem CharForm.single (form : CharForm c t) : CharsForm [c] t := by
  have forms := CharsForm.cons form .nil
  rwa [List.append_nil] at forms

/-- Of two tokens next to each other at least one is a sign. -/
def Apart (a b : Token) : Prop := (∃ m, a = .mark m) ∨ ∃ m, b = .mark m

theorem isChain_append_mark (front : tokens.IsChain Apart) (back : later.IsChain Apart) :
    (tokens ++ .mark m :: later).IsChain Apart := by
  rw [List.isChain_split]
  constructor
  · apply List.isChain_append.mpr
    refine ⟨front, .singleton _, fun a _ b last => Or.inr ⟨m, ?_⟩⟩
    simpa using last.symm
  · exact List.isChain_cons.mpr ⟨fun b _ => Or.inl ⟨m, rfl⟩, back⟩

theorem isChain_intercalate {parts : List (List Token)}
    (apart : ∀ part ∈ parts, part.IsChain Apart) :
    ([Token.mark .comma].intercalate parts).IsChain Apart := by
  induction parts with
  | nil => exact .nil
  | cons part parts ih =>
    obtain ⟨first, others⟩ := List.forall_mem_cons.mp apart
    cases parts with
    | nil => simpa using first
    | cons part' parts =>
      rw [List.intercalate_cons_cons, List.append_assoc]
      exact isChain_append_mark first (ih others)

/-- Between two tokens of a value that are no signs there is a sign. -/
theorem isChain_tokens (value : Json) : value.tokens.IsChain Apart := by
  have enclosed (open' close : Mark) {inside : List Token} (apart : inside.IsChain Apart) :
      (Token.mark open' :: (inside ++ [.mark close])).IsChain Apart :=
    isChain_append_mark .nil (isChain_append_mark apart .nil)
  induction value using Json.induction with
  | null => exact .singleton _
  | bool value => exact .singleton _
  | number token => exact .singleton _
  | string value => exact .singleton _
  | array items ih =>
    rw [Json.tokens, itemTokens_eq_map]
    apply enclosed
    apply isChain_intercalate
    simpa using ih
  | object fields ih =>
    rw [Json.tokens, fieldTokens_eq_map]
    apply enclosed
    apply isChain_intercalate
    intro part member
    obtain ⟨field, inside, rfl⟩ := List.mem_map.mp member
    exact isChain_append_mark (.singleton _) (ih field inside)

end RulePruner.Json
