import RulePruner.Text.Encoding

/-!
Control sequences of terminals, and texts without them. What a reader of a text skips depends on
where it stands: in plain text, inside a sequence that an escape opened, or inside a string that a
sequence opened. `strip` keeps what is to be seen. Its main equations say that plain characters
stay as they are and that a style code goes.
-/

namespace RulePruner.Control

/-- A sequence that is open and ends at its final character. -/
inductive Sequence where
  /-- Behind an escape. -/
  | escape
  /-- Behind an escape and at least one intermediate character. -/
  | designation
  /-- Behind an escape and a bracket, where parameters are to come. -/
  | control
  deriving DecidableEq, Repr

/-- How far the head of a device control string has come. -/
inductive Head where
  | opened
  | parameters
  | intermediates
  deriving DecidableEq, Repr

/-- Where a reader stands. -/
inductive State where
  /-- In plain text. -/
  | plain
  /-- Inside a sequence. -/
  | within (sequence : Sequence)
  /-- In plain text that interrupts a sequence. -/
  | suspended (sequence : Sequence)
  /-- In the head of a device control string. -/
  | deviceControl (head : Head)
  /-- In a string that nothing but its terminator ends. -/
  | string
  /-- In a command to the operating system, which a bell ends as well. -/
  | command
  deriving DecidableEq, Repr

/-- What a blank inside a sequence does to the sequence. -/
inductive Interruption where
  /-- The sequence is over. -/
  | ends
  /-- The sequence goes on at the next control character in the text. -/
  | suspends
  deriving DecidableEq, Repr

/-- The control characters that are blanks. -/
def isBlank (c : Char) : Bool := c = '\t' || c = '\n' || c = '\x0c' || c = '\r'

/-- The characters that plain text shows. -/
def isShown (c : Char) : Bool := (' ' ≤ c && c ≠ '\x7f') || isBlank c

/-- The characters beyond those of seven bits. -/
def isWide (c : Char) : Bool := '\x7f' < c

/-- The intermediate characters of a sequence. -/
def isIntermediate (c : Char) : Bool := ' ' ≤ c && c ≤ '/'

/-- The parameter characters of a sequence, of which the last four are private. -/
def isParameter (c : Char) : Bool := '0' ≤ c && c ≤ '?'

/-- The characters that end a sequence with parameters. -/
def isFinal (c : Char) : Bool := '@' ≤ c && c ≤ '~'

/-- The terminator of strings, as a byte. -/
def terminator : UInt8 := 0x9c

/-- The state behind a character that follows an escape. -/
def opened (c : Char) : State :=
  if c = '[' then .within .control
  else if c = ']' then .command
  else if c = 'P' then .deviceControl .opened
  else if c = 'X' ∨ c = '^' ∨ c = '_' then .string
  else if isIntermediate c then .within .designation
  else if isParameter c ∨ isFinal c then .plain
  else .within .escape

/-- The state behind a character of a sequence, which is neither a blank nor an escape. -/
def Sequence.next : Sequence → Char → State
  | escape, c => opened c
  | designation, c => if isParameter c ∨ isFinal c then .plain else .within designation
  | control, c => if isFinal c then .plain else .within control

/-- The state behind a character in the head of a device control string. -/
def Head.next (head : Head) (c : Char) : State :=
  if isFinal c then .string
  else if isIntermediate c then .deviceControl .intermediates
  else if isParameter c then
    match head with
    | opened => .deviceControl .parameters
    | parameters => if c < '<' then .deviceControl .parameters else .string
    | intermediates => .string
  else .deviceControl head

/-- The state in which a sequence is left by a blank. -/
def Interruption.state : Interruption → Sequence → State
  | ends, _ => .plain
  | suspends, sequence => .suspended sequence

/-- Whether a character is shown, by the state in front of it. -/
def State.shows : State → Char → Bool
  | plain, c => isShown c
  | suspended _, c => isShown c
  | within _, c => isBlank c
  | deviceControl _, _ | string, _ | command, _ => false

/-- The state behind a character. An escape always opens a sequence, and a cancelling character
always leads back to plain text. A terminator of strings counts wherever it stands among the bytes
of a character. -/
def State.next (interruption : Interruption) (state : State) (c : Char) : State :=
  if c = '\x1b' then .within .escape
  else if c = '\x18' ∨ c = '\x1a' then .plain
  else
    match state with
    | plain => .plain
    | within sequence => if isBlank c then interruption.state sequence else sequence.next c
    | suspended sequence =>
      if isWide c then .plain
      else if isShown c then .suspended sequence
      else sequence.next c
    | deviceControl head => head.next c
    | string => if isWide c ∧ terminator ∈ Text.encode [c] then .plain else .string
    | command => if c = '\x07' then .plain else .command

/-- The characters to be seen from a state on, behind those `seen` before, of which the last comes
first. -/
def strip.go (interruption : Interruption) (state : State) (seen : Text) : Text → Text
  | [] => seen.reverse
  | c :: rest =>
    go interruption (state.next interruption c) (if state.shows c then c :: seen else seen) rest

/-- A text without control sequences and control characters. -/
def strip (interruption : Interruption) (t : Text) : Text := strip.go interruption .plain [] t

theorem strip_go_append (interruption : Interruption) (state : State) (seen t : Text) :
    strip.go interruption state seen t = seen.reverse ++ strip.go interruption state [] t := by
  induction t generalizing state seen with
  | nil => simp [strip.go]
  | cons c rest ih =>
    rw [strip.go, strip.go, ih]
    conv => rhs; rw [ih]
    split <;> simp

/-- A shown character in plain text stays, and plain text goes on behind it. -/
theorem strip_cons_of_isShown (interruption : Interruption) {c : Char} (shown : isShown c = true)
    (rest : Text) : strip interruption (c :: rest) = c :: strip interruption rest := by
  have next : State.plain.next interruption c = .plain := by
    have escape : c ≠ '\x1b' := by rintro rfl; exact absurd shown (by decide)
    simp [State.next, escape]
  rw [strip, strip.go, next, strip_go_append]
  simp [State.shows, shown, strip]

/-- Shown characters in plain text stay. -/
theorem strip_append_of_isShown (interruption : Interruption) {t : Text}
    (shown : ∀ c ∈ t, isShown c = true) (rest : Text) :
    strip interruption (t ++ rest) = t ++ strip interruption rest := by
  induction t with
  | nil => rfl
  | cons c t ih =>
    rw [List.cons_append, strip_cons_of_isShown interruption (shown c (by simp)),
      ih fun d member => shown d (by simp [member]), List.cons_append]

/-- The parameters and the final character of a control sequence go. -/
theorem strip_go_control (interruption : Interruption) {parameters : Text}
    (allowed : ∀ c ∈ parameters, isParameter c = true) {final : Char}
    (ending : isFinal final = true) (rest : Text) :
    strip.go interruption (.within .control) [] (parameters ++ final :: rest) =
      strip interruption rest := by
  induction parameters with
  | nil =>
    have escape : final ≠ '\x1b' := by rintro rfl; exact absurd ending (by decide)
    have blank : isBlank final = false := by
      rw [Bool.eq_false_iff]
      intro blank
      simp only [isBlank, Bool.or_eq_true, decide_eq_true_eq] at blank
      obtain ((rfl | rfl) | rfl) | rfl := blank <;> exact absurd ending (by decide)
    simp [strip.go, State.shows, State.next, escape, blank, Sequence.next, ending, strip]
  | cons c parameters ih =>
    have parameter := allowed c (by simp)
    have escape : c ≠ '\x1b' := by rintro rfl; exact absurd parameter (by decide)
    have cancel : ¬ (c = '\x18' ∨ c = '\x1a') := by
      rintro (rfl | rfl) <;> exact absurd parameter (by decide)
    have blank : isBlank c = false := by
      rw [Bool.eq_false_iff]
      intro blank
      simp only [isBlank, Bool.or_eq_true, decide_eq_true_eq] at blank
      obtain ((rfl | rfl) | rfl) | rfl := blank <;> exact absurd parameter (by decide)
    have inside : isFinal c = false := by
      simp only [isParameter, isFinal, Bool.and_eq_true, decide_eq_true_eq, Bool.and_eq_false_iff,
        decide_eq_false_iff_not] at parameter ⊢
      exact .inl fun low => absurd (Char.le_trans low parameter.2) (by decide)
    have next : State.next interruption (.within .control) c = .within .control := by
      simp [State.next, escape, cancel, blank, Sequence.next, inside]
    rw [List.cons_append, strip.go, next]
    simpa [State.shows, blank] using ih fun d member => allowed d (by simp [member])

/-- A control sequence goes as a whole. -/
theorem strip_control (interruption : Interruption) {parameters : Text}
    (allowed : ∀ c ∈ parameters, isParameter c = true) {final : Char}
    (ending : isFinal final = true) (rest : Text) :
    strip interruption ('\x1b' :: '[' :: parameters ++ final :: rest) = strip interruption rest := by
  rw [← strip_go_control interruption allowed ending rest]
  simp [strip, strip.go, State.next, State.shows, isShown, isBlank, Sequence.next, opened]

end RulePruner.Control
