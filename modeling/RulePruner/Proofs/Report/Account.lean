import RulePruner.Proofs.Json.Written
import RulePruner.Proofs.Report.Number
import RulePruner.Proofs.Report.Printing

/-!
# What a JSON report tells

A JSON report is one JSON object and a newline. Whatever value the grammar gives it, that value has
the names of the removed classes, the three counts, the strategy, whether the stylesheet was
written, and the reduction as it was written, or null. The main statement is
`Report.jsonReport_told`.
-/

namespace RulePruner.Report

/-- What a JSON report tells of a run. The reduction is kept as it is written. -/
structure Account where
  removed : List Text
  charsBefore : Nat
  charsAfter : Nat
  charsRemoved : Nat
  reduction : Option Text
  strategy : Strategy
  written : Bool
  deriving DecidableEq, Repr

namespace Account

/-- The account of an outcome, with its reduction as it is written. -/
def of (outcome : Outcome) (reduction : Option Text) : Account where
  removed := outcome.removed
  charsBefore := outcome.charsBefore
  charsAfter := outcome.charsAfter
  charsRemoved := outcome.charsRemoved
  reduction := reduction
  strategy := outcome.strategy
  written := outcome.written

/-- The text of a string. -/
def text? : Json → Option Text
  | .string value => some value
  | _ => none

/-- The texts of an array of strings. -/
def texts? : Json → Option (List Text)
  | .array items => items.mapM text?
  | _ => none

/-- The value of a number that is written with digits only. -/
def count? : Json → Option Nat
  | .number token => if token.all Char.isDigit then some (Nat.ofDigitChars 10 token 0) else none
  | _ => none

/-- A number as it is written, unless it is null. -/
def number? : Json → Option (Option Text)
  | .null => some none
  | .number token => some (some token)
  | _ => none

/-- The strategy of a given name. -/
def strategy? (value : Json) : Option Strategy :=
  (text? value).bind fun name => Strategy.ofName? (String.ofList name)

/-- The value of a truth value. -/
def truth? : Json → Option Bool
  | .bool value => some value
  | _ => none

/-- The account that an object gives, in whatever order its fields come. -/
def ofJson? : Json → Option Account
  | .object fields => do
    let field (key : String) := fields.lookup key.toList
    let removed ← (field "removed_classes").bind texts?
    let charsBefore ← (field "original_chars").bind count?
    let charsAfter ← (field "final_chars").bind count?
    let charsRemoved ← (field "chars_removed").bind count?
    let reduction ← (field "reduction_percent").bind number?
    let strategy ← (field "mode").bind strategy?
    let written ← (field "written").bind truth?
    some { removed, charsBefore, charsAfter, charsRemoved, reduction, strategy, written }
  | _ => none

/-- A text tells an account: it is an object and a newline, it is read as a value that gives the
account, and the grammar gives it no value that does not. -/
structure ToldBy (account : Account) (t : Text) : Prop where
  object : ∃ object fields, t = object ++ ['\n'] ∧ Json.TextOf (.object fields) object ∧
    (fields.map Prod.fst).Nodup
  read : (Json.read? t).bind ofJson? = some account
  only : ∀ value, Json.TextOf value t → ofJson? value = some account

end Account

variable {outcome : Outcome} {token? : Option Text}

theorem mapM_text? (names : List Text) : (names.map Json.string).mapM Account.text? = some names := by
  induction names with
  | nil => rfl
  | cons name names ih => simp [Account.text?, ih]

theorem count?_ofNat (n : Nat) : Account.count? (.ofNat n) = some n := by
  have digits : (Decimal.numeral n).all Char.isDigit := List.all_eq_true.mpr (Decimal.isDigits_numeral n).2
  simp only [Json.ofNat, Account.count?, digits, if_true]
  rw [Decimal.numeral, Nat.ofDigitChars_ten_toDigits]

theorem number?_elim (token? : Option Text) :
    Account.number? (token?.elim .null .number) = some token? := by
  cases token? <;> rfl

theorem strategy?_name (strategy : Strategy) :
    Account.strategy? (.string strategy.name.toList) = some strategy := by
  simp [Account.strategy?, Account.text?, Strategy.ofName?_name]

/-- The value of a report gives the account of the outcome. -/
theorem ofJson?_jsonWith (outcome : Outcome) (token? : Option Text) :
    Account.ofJson? (jsonWith (token?.elim .null .number) outcome) = some (.of outcome token?) := by
  have removed : Account.texts? (.array (outcome.removed.map .string)) = some outcome.removed :=
    mapM_text? _
  have fields : Account.ofJson? (jsonWith (token?.elim .null .number) outcome) =
      (Account.texts? (.array (outcome.removed.map .string))).bind fun removed =>
      (Account.count? (.ofNat outcome.charsBefore)).bind fun charsBefore =>
      (Account.count? (.ofNat outcome.charsAfter)).bind fun charsAfter =>
      (Account.count? (.ofNat outcome.charsRemoved)).bind fun charsRemoved =>
      (Account.number? (token?.elim .null .number)).bind fun reduction =>
      (Account.strategy? (.string outcome.strategy.name.toList)).bind fun strategy =>
      some ⟨removed, charsBefore, charsAfter, charsRemoved, reduction, strategy, outcome.written⟩ := rfl
  rw [fields, removed, count?_ofNat, count?_ofNat, count?_ofNat, number?_elim, strategy?_name]
  rfl

theorem valid_jsonWith (outcome : Outcome) (valid : ∀ token ∈ token?, Json.IsNumber token) :
    (jsonWith (token?.elim .null .number) outcome).Valid := by
  have reduction : (token?.elim .null .number : Json).Valid := by
    cases token? with
    | none => exact Json.valid_null
    | some token => exact Json.valid_number_iff.mpr (valid token rfl)
  have names : (Json.array (outcome.removed.map .string)).Valid := by
    rw [Json.valid_array_iff]
    simp [Json.valid_string]
  have count (n : Nat) : (Json.ofNat n).Valid :=
    Json.valid_number_iff.mpr (Decimal.isNumber_numeral n)
  rw [jsonWith, Json.valid_object_iff]
  simp [reduction, names, count, Json.valid_string, Json.valid_bool]

/-- What is written for an outcome tells its account. -/
theorem told_write (outcome : Outcome) (valid : ∀ token ∈ token?, Json.IsNumber token) :
    (Account.of outcome token?).ToldBy
      ((jsonWith (token?.elim .null .number) outcome).write ++ ['\n']) := by
  have object := Json.textOf_write (valid_jsonWith outcome valid)
  have newline : Json.Layout [] ['\n'] := .space rfl .nil
  have whole : Json.TextOf (jsonWith (token?.elim .null .number) outcome)
      ((jsonWith (token?.elim .null .number) outcome).write ++ ['\n']) := by
    have ended := object.append newline
    rwa [List.append_nil] at ended
  constructor
  · refine ⟨_, _, rfl, object, ?_⟩
    simp only [List.map_cons, List.map_nil]
    decide
  · rw [Json.read?_eq_some_iff.mpr whole]
    exact ofJson?_jsonWith outcome token?
  · intro value layout
    rw [layout.unique whole]
    exact ofJson?_jsonWith outcome token?

/-- A JSON report is a JSON object and a newline and tells everything of an outcome: with any number
token in place of the reduction, that token, and otherwise the token that the reduction is written
as, or null where there is none. -/
theorem jsonReport_told (outcome : Outcome) :
    (∀ token? : Option Text, (∀ token ∈ token?, Json.IsNumber token) →
      (Account.of outcome token?).ToldBy
        ((jsonWith (token?.elim .null .number) outcome).write ++ ['\n'])) ∧
    ∃ token? : Option Text, outcome.reduction.elim .null number = token?.elim .null .number ∧
      ∃ t, Text.decode? (Print.json outcome).bytes = some t ∧
        (Account.of outcome token?).ToldBy t := by
  refine ⟨fun token? valid => told_write outcome valid, ?_⟩
  obtain ⟨token?, same, valid⟩ : ∃ token? : Option Text,
      outcome.reduction.elim .null number = token?.elim .null .number ∧
        ∀ token ∈ token?, Json.IsNumber token := by
    cases outcome.reduction with
    | none => exact ⟨none, rfl, by simp⟩
    | some x => exact exists_number_eq x
  refine ⟨token?, same, _, ?_, told_write outcome valid⟩
  rw [Print.bytes_eq, Text.decode?_encode, Print.pieces, jsonReport, json, same]
  simp

/-- Names with quotes, backslashes, control characters and line separators, the greatest count of 64
bits, and a reduction with an exponent. -/
theorem jsonReport_told_of_escaped_names :
    let outcome : Outcome := ⟨["a\"b\\c".toList, "\x00\x1f\x7f\u2028".toList, []],
      18446744073709551615, 0, 18446744073709551615, none, .fast, true⟩
    Json.IsNumber "-1.5e-7".toList ∧ (Account.of outcome (some "-1.5e-7".toList)).ToldBy
      ((jsonWith (.number "-1.5e-7".toList) outcome).write ++ ['\n']) := by
  intro outcome
  have number : Json.IsNumber "-1.5e-7".toList := by decide
  refine ⟨number, (jsonReport_told outcome).1 (some _) ?_⟩
  intro token member
  exact Option.some.inj member ▸ number

end RulePruner.Report
