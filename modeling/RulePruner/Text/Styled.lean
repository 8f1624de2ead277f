import RulePruner.Text.Control

/-!
Styled texts: fragments, each in one style. A styled text can be written with the codes that a
terminal understands, or be read without any; taking the codes out of what is written gives back
the bare text, as long as that holds only what a terminal shows.
-/

namespace RulePruner

/-- What a fragment of a text stands out as. -/
inductive Style where
  | plain
  /-- A title, or something to be typed as it is. -/
  | strong
  /-- The heading of a section. -/
  | heading
  /-- The word that something is wrong. -/
  | alarm
  /-- What is wrong. -/
  | invalid
  /-- What would be right. -/
  | valid
  /-- The mark of a note. -/
  | mark
  deriving DecidableEq, Repr

namespace Style

/-- The codes that switch a style on. -/
def codes : Style → List String
  | plain => []
  | strong => ["1"]
  | heading => ["1", "4"]
  | alarm => ["1", "31"]
  | invalid => ["33"]
  | valid => ["32"]
  | mark => ["94"]

/-- The control sequence of a code. -/
def sequence (code : String) : Text := '\x1b' :: '[' :: code.toList ++ ['m']

/-- A text with a style switched on before it and off behind it. -/
def write (style : Style) (t : Text) : Text :=
  match style.codes with
  | [] => t
  | codes => codes.flatMap sequence ++ t ++ sequence "0"

end Style

/-- A text of which all stands out in the same way. -/
structure Fragment where
  style : Style
  text : Text
  deriving DecidableEq, Repr

/-- A text that stands out in parts. -/
abbrev Styled := List Fragment

/-- A string in one style. -/
def Style.of (style : Style) (s : String) : Styled := [⟨style, s.toList⟩]

namespace Styled

/-- A styled text with the codes of its styles. -/
def write (t : Styled) : Text := t.flatMap fun fragment => fragment.style.write fragment.text

/-- A styled text without styles. -/
def bare (t : Styled) : Text := t.flatMap Fragment.text

/-- A styled text as it is read where styles are not wanted. Control sequences of its own are taken
out together with those of its styles. -/
def unstyled (interruption : Control.Interruption) (t : Styled) : Text :=
  Control.strip interruption t.write

/-- The items of a list with a string between them. -/
def joined (between : String) (items : List Styled) : Styled :=
  (items.intersperse (Style.plain.of between)).flatten

/-- A styled text with blanks up to a width. -/
def padded (width : Nat) (t : Styled) : Styled :=
  t ++ Style.plain.of (String.ofList (List.replicate (width - t.bare.length) ' '))

/-- The sequence of a code is not to be seen. -/
theorem strip_sequence (interruption : Control.Interruption) {code : String}
    (digits : ∀ c ∈ code.toList, Control.isParameter c = true) (rest : Text) :
    Control.strip interruption (Style.sequence code ++ rest) = Control.strip interruption rest := by
  have ending : Control.isFinal 'm' = true := rfl
  simpa [Style.sequence] using Control.strip_control interruption digits ending rest

theorem strip_sequences (interruption : Control.Interruption) {codes : List String}
    (digits : ∀ code ∈ codes, ∀ c ∈ code.toList, Control.isParameter c = true) (rest : Text) :
    Control.strip interruption (codes.flatMap Style.sequence ++ rest) =
      Control.strip interruption rest := by
  induction codes with
  | nil => rfl
  | cons code codes ih =>
    rw [List.flatMap_cons, List.append_assoc,
      strip_sequence interruption (digits code (by simp)),
      ih fun other member => digits other (by simp [member])]

/-- What is seen of a text in a style is the text. -/
theorem strip_fragment (interruption : Control.Interruption) (style : Style) {t : Text}
    (shown : ∀ c ∈ t, Control.isShown c = true) (rest : Text) :
    Control.strip interruption (style.write t ++ rest) = t ++ Control.strip interruption rest := by
  have digits : (style.codes.all fun code => code.toList.all Control.isParameter) = true := by
    cases style <;> rfl
  have nought : "0".toList.all Control.isParameter = true := rfl
  unfold Style.write
  split
  · exact Control.strip_append_of_isShown interruption shown rest
  · rw [List.append_assoc, List.append_assoc,
      strip_sequences interruption fun code member =>
        List.all_eq_true.1 (List.all_eq_true.1 digits code member),
      Control.strip_append_of_isShown interruption shown,
      strip_sequence interruption (List.all_eq_true.1 nought)]

/-- A styled text that holds only shown characters loses its styles and nothing else. -/
theorem unstyled_eq_bare (interruption : Control.Interruption) {t : Styled}
    (shown : ∀ fragment ∈ t, ∀ c ∈ fragment.text, Control.isShown c = true) :
    unstyled interruption t = bare t := by
  induction t with
  | nil => rfl
  | cons fragment t ih =>
    have rest : Control.strip interruption (write t) = bare t :=
      ih fun other member => shown other (by simp [member])
    rw [unstyled, write, List.flatMap_cons, strip_fragment interruption _ (shown fragment (by simp))]
    exact congrArg (fragment.text ++ ·) rest

end Styled

end RulePruner
