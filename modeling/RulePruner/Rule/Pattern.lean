import RulePruner.Text.Blank
import RulePruner.Text.Encoding

/-!
The pattern of a class's rules for the fast strategy: a regular expression for a dot, the name,
blanks, and a block whose inner blocks hold no further ones. `Pattern.text` writes an expression
down and `Pattern.Denotes` says which texts it stands for.
-/

namespace RulePruner

/-- A regular expression. -/
inductive Pattern where
  /-- The given text. -/
  | literal (text : Text)
  /-- One blank. -/
  | blank
  /-- One character other than the given ones. -/
  | noneOf (excluded : Text)
  /-- A text of the first expression followed by one of the second. -/
  | followedBy (first second : Pattern)
  /-- Any number of texts of the expression, one after the other. -/
  | many (item : Pattern)
  deriving DecidableEq, Repr

namespace Pattern

/-- The texts that an expression stands for. -/
inductive Denotes : Pattern → Text → Prop where
  | literal (text : Text) : Denotes (literal text) text
  | blank {c : Char} (isBlank : Text.isBlank c) : Denotes blank [c]
  | noneOf {excluded : Text} {c : Char} (fresh : c ∉ excluded) : Denotes (noneOf excluded) [c]
  | followedBy {first second : Pattern} {s t : Text} :
      Denotes first s → Denotes second t → Denotes (followedBy first second) (s ++ t)
  | none {item : Pattern} : Denotes (many item) []
  | more {item : Pattern} {s t : Text} :
      Denotes item s → Denotes (many item) t → Denotes (many item) (s ++ t)

/-- The characters that have a meaning of their own in a written expression. -/
def metaCharacters : Text :=
  ['\\', '.', '+', '*', '?', '(', ')', '|', '[', ']', '{', '}', '^', '$', '#', '&', '-', '~']

/-- A character that stands for itself, behind a backslash where it has a meaning of its own. -/
def escapeChar (c : Char) : Text :=
  if c ∈ metaCharacters then ['\\', c] else [c]

/-- A text that stands for itself. -/
def escape (t : Text) : Text := t.flatMap escapeChar

/-- Whether an expression is written as a single sign. -/
def isSign : Pattern → Bool
  | blank | noneOf _ => true
  | _ => false

/-- The expression as it is written. What is repeated is put into a group, unless it is a single
sign. -/
def text : Pattern → Text
  | literal t => escape t
  | blank => ['\\', 's']
  | noneOf excluded => ['[', '^'] ++ excluded ++ [']']
  | followedBy first second => first.text ++ second.text
  | many item =>
    (if item.isSign then item.text else ['(', '?', ':'] ++ item.text ++ [')']) ++ ['*']

/-- Any text without braces. -/
def plain : Pattern := many (noneOf ['{', '}'])

/-- Braces around a text of the given expression. -/
def braced (inside : Pattern) : Pattern :=
  followedBy (literal ['{']) (followedBy inside (literal ['}']))

/-- A block whose inner blocks hold no further ones. -/
def shallowBlock : Pattern :=
  braced (followedBy plain (many (followedBy (braced plain) plain)))

/-- A rule of class `name` with such a block. -/
def rule (name : Text) : Pattern :=
  followedBy (literal ('.' :: name)) (followedBy (many blank) shallowBlock)

/-- The greatest size in bytes of a compiled expression. -/
def sizeLimit : Nat := 10485760

/-- The number of bytes from which on a name makes the compiled expression exceed `sizeLimit`. How
large a compiled expression gets is up to the engine that compiles it. It has been seen to accept
names of up to 20000 bytes and to refuse names of 400000 bytes and more; the border is put in
between, and nothing is proved that depends on where. -/
def nameLimit : Nat := 327546

/-- Whether the expression for the rules of class `name` is small enough to be compiled. -/
def compiles (name : Text) : Bool := Text.byteSize name < nameLimit

end Pattern

end RulePruner
