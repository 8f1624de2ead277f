import RulePruner.Decimal.Fixed

/-!
JSON values and their written form: two blanks for each level, one entry a line, an empty array or
object on one line. Of the characters of a string only quotes, backslashes and control characters
are escaped.
-/

namespace RulePruner

/-- A JSON value. A number is kept as it is written. -/
inductive Json where
  | null
  | bool (value : Bool)
  | number (token : Text)
  | string (value : Text)
  | array (items : List Json)
  | object (fields : List (Text × Json))
  deriving Repr

namespace Json

/-- A natural number as a value. -/
def ofNat (n : Nat) : Json := number (Decimal.numeral n)

/-- The four digits of a character's code in base sixteen. -/
def hexDigits (c : Char) : Text :=
  let shown := Nat.toDigits 16 c.toNat
  List.replicate (4 - shown.length) '0' ++ shown

/-- A character inside a written string. -/
def escapeChar (c : Char) : Text :=
  if c = '"' then ['\\', '"']
  else if c = '\\' then ['\\', '\\']
  else if c = '\x08' then ['\\', 'b']
  else if c = '\t' then ['\\', 't']
  else if c = '\n' then ['\\', 'n']
  else if c = '\x0c' then ['\\', 'f']
  else if c = '\r' then ['\\', 'r']
  else if c.toNat < 0x20 then '\\' :: 'u' :: hexDigits c
  else [c]

/-- A written string. -/
def quote (t : Text) : Text := '"' :: t.flatMap escapeChar ++ ['"']

/-- The start of a line at a given depth. -/
def lineStart (depth : Nat) : Text := '\n' :: List.replicate (2 * depth) ' '

mutual

/-- The written form of a value that stands at a given depth. -/
def writeAt (depth : Nat) : Json → Text
  | null => ['n', 'u', 'l', 'l']
  | bool true => ['t', 'r', 'u', 'e']
  | bool false => ['f', 'a', 'l', 's', 'e']
  | number token => token
  | string value => quote value
  | array [] => ['[', ']']
  | array (item :: items) =>
    '[' :: lineStart (depth + 1) ++ writeAt (depth + 1) item ++ writeItems (depth + 1) items ++
      lineStart depth ++ [']']
  | object [] => ['{', '}']
  | object ((key, value) :: fields) =>
    '{' :: lineStart (depth + 1) ++ quote key ++ [':', ' '] ++ writeAt (depth + 1) value ++
      writeFields (depth + 1) fields ++ lineStart depth ++ ['}']

/-- The later items of an array, each after a comma and on a line of its own. -/
def writeItems (depth : Nat) : List Json → Text
  | [] => []
  | item :: items => ',' :: lineStart depth ++ writeAt depth item ++ writeItems depth items

/-- The later fields of an object, each after a comma and on a line of its own. -/
def writeFields (depth : Nat) : List (Text × Json) → Text
  | [] => []
  | (key, value) :: fields =>
    ',' :: lineStart depth ++ quote key ++ [':', ' '] ++ writeAt depth value ++
      writeFields depth fields

end

/-- The written form of a value. -/
def write (value : Json) : Text := writeAt 0 value

end Json

end RulePruner
