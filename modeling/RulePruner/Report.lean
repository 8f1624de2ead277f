import RulePruner.Decimal.Layout
import RulePruner.Json
import RulePruner.Outcome
import RulePruner.Text.Styled

/-!
Reports: the progress line of a class, the summary of a run, the note after a dry run, and the
report in JSON. Each is a list of pieces, in the order in which a writer gets them.
-/

namespace RulePruner.Report

/-- A text in a style, or bare when colours are off. -/
def styled (style : Style) (colored : Bool) (t : Text) : Text :=
  if colored then style.write t else t

/-- The line that tells of a class whose rules are cut out. -/
def removing (name : Text) : Text := "Removing class: .".toList ++ name ++ ['\n']

/-- A percentage with one place, of which special values keep their names. -/
def percentage (x : Float) : Text :=
  let sign (negative : Bool) : Text := if negative then ['-'] else []
  match Decimal.Double.ofFloat x with
  | .notANumber => "NaN%".toList
  | .infinite negative => sign negative ++ "inf%".toList
  | .finite negative mantissa exponent =>
    sign negative ++ Decimal.fixed 1 mantissa exponent ++ ['%']

/-- The size reduction of a summary. -/
def reduction : Option Float → Text
  | some x => percentage x
  | none => "N/A".toList

/-- A line of a summary that gives one figure. -/
def figure (label : String) (value : Text) (unit : String) : Text :=
  label.toList ++ value ++ unit.toList ++ ['\n']

/-- The names of the removed classes, if there are any. -/
def removedNames : List Text → List Text
  | [] => []
  | names =>
    ["\nRemoved classes: ".toList ++ (names.intersperse [',', ' ']).flatten ++ ['\n']]

/-- The summary of a run. -/
def summary (colored : Bool) (outcome : Outcome) : List Text :=
  [['\n'] ++ styled .strong colored "--- CSS Cleanup Results ---".toList ++ ['\n'],
   figure "Classes removed: " (Decimal.numeral outcome.removed.length) "",
   figure "Characters removed: " (Decimal.numeral outcome.charsRemoved) "",
   figure "Original size: " (Decimal.numeral outcome.charsBefore) " characters",
   figure "Final size: " (Decimal.numeral outcome.charsAfter) " characters",
   figure "Size reduction: " (reduction outcome.reduction) ""] ++
    removedNames outcome.removed

/-- The note that a dry run left the stylesheet as it was. -/
def dryRunNote (colored : Bool) (path : Text) : List Text :=
  [['\n'] ++ styled .mark colored ['●'] ++ " Dry run: ".toList ++ path ++
    " was not modified.\n".toList]

/-- The numbers of the JSON report have their point in place from `10 ^ -5` up to just below
`10 ^ 16`. -/
def numberLayout : Decimal.Layout where
  least := -5
  greatest := 15

/-- A double in JSON, which has no infinities. -/
def number (x : Float) : Json :=
  match Decimal.Double.ofFloat x with
  | .notANumber | .infinite _ => .null
  | .finite negative mantissa exponent =>
    let decimal := if mantissa = 0 then ⟨0, 0⟩ else Decimal.shortest mantissa exponent
    .number ((if negative then ['-'] else []) ++ numberLayout.write decimal)

/-- The outcome of a run as a JSON value, its reduction already as a value. -/
def jsonWith (reduction : Json) (outcome : Outcome) : Json :=
  .object
    [("removed_classes".toList, .array (outcome.removed.map .string)),
     ("original_chars".toList, .ofNat outcome.charsBefore),
     ("final_chars".toList, .ofNat outcome.charsAfter),
     ("chars_removed".toList, .ofNat outcome.charsRemoved),
     ("reduction_percent".toList, reduction),
     ("mode".toList, .string outcome.strategy.name.toList),
     ("written".toList, .bool outcome.written)]

/-- The outcome of a run as a JSON value. -/
def json (outcome : Outcome) : Json :=
  jsonWith (outcome.reduction.elim .null number) outcome

/-- The JSON report of a run. -/
def jsonReport (outcome : Outcome) : List Text := [(json outcome).write, ['\n']]

end RulePruner.Report
