import RulePruner.Proofs.Json.Word

/-!
# Reading the tokens of a JSON text

The reader of tokens takes one character at a time. What it has read up to a place is told by
`Json.Lexer.Holds`, which every step keeps, so the tokens that it finds are laid out in the text;
and it finds the tokens of every layout in which a sign stands between any two other tokens
(`Json.lex?_eq_some_iff`).
-/

namespace RulePruner.Json

/-- The signs. -/
def marks : List Mark := [.openArray, .closeArray, .openObject, .closeObject, .colon, .comma]

/-- The sign that a character is. -/
def mark? (c : Char) : Option Mark := marks.find? fun m => m.char = c

/-- The character of a code. -/
def charOf? (code : Nat) : Option Char :=
  if (Char.ofNat code).toNat = code then some (Char.ofNat code) else none

/-- Where a reader of tokens stands. -/
inductive Place where
  | between
  | word (word : Text)
  /-- In a string of which some characters are known. If the last escape was the first one of a pair
  of surrogates, its number is kept. -/
  | string (known : Text) (high? : Option Nat)
  /-- Behind a backslash. -/
  | escape (known : Text) (high? : Option Nat)
  /-- Among the digits of a code. -/
  | code (known : Text) (high? : Option Nat) (digits : Text)
  deriving DecidableEq, Repr

/-- A reader of tokens: those it has found, and where it stands. -/
structure Lexer where
  tokens : List Token
  place : Place
  deriving DecidableEq, Repr

/-- The place behind the code of an escape. -/
def Place.ofCode? (known : Text) (high? : Option Nat) (code : Nat) : Option Place :=
  match high? with
  | none =>
    if firstHigh ≤ code ∧ code < firstHigh + surrogates then
      some (.string known (some (code - firstHigh)))
    else (charOf? code).map fun c => .string (known ++ [c]) none
  | some high =>
    if firstLow ≤ code ∧ code < firstLow + surrogates then
      (charOf? (0x10000 + surrogates * high + (code - firstLow))).map fun c =>
        .string (known ++ [c]) none
    else none

namespace Lexer

/-- The reader behind a character that does not belong to the token before it. -/
def start (tokens : List Token) (c : Char) : Option Lexer :=
  if isSpace c then some ⟨tokens, .between⟩
  else if c = '"' then some ⟨tokens, .string [] none⟩
  else if isWordChar c then some ⟨tokens, .word [c]⟩
  else (mark? c).map fun m => ⟨tokens ++ [.mark m], .between⟩

/-- The reader one character on. -/
def step (lexer : Lexer) (c : Char) : Option Lexer :=
  match lexer.place with
  | .between => start lexer.tokens c
  | .word word =>
    if isWordChar c then some { lexer with place := .word (word ++ [c]) }
    else (word? word).bind fun token => start (lexer.tokens ++ [token]) c
  | .string known high? =>
    if c = '\\' then some { lexer with place := .escape known high? }
    else if high? ≠ none then none
    else if c = '"' then some ⟨lexer.tokens ++ [.string known], .between⟩
    else if isPlain c then some { lexer with place := .string (known ++ [c]) none }
    else none
  | .escape known high? =>
    if c = 'u' then some { lexer with place := .code known high? [] }
    else if high? ≠ none then none
    else (shortEscapes.lookup c).map fun d => { lexer with place := .string (known ++ [d]) none }
  | .code known high? digits =>
    if digits.length < 3 then some { lexer with place := .code known high? (digits ++ [c]) }
    else
      ((hexCode? (digits ++ [c])).bind (Place.ofCode? known high?)).map fun place =>
        { lexer with place := place }

/-- The tokens that were found, if the last of them is complete. -/
def finish? (lexer : Lexer) : Option (List Token) :=
  match lexer.place with
  | .between => some lexer.tokens
  | .word word => (word? word).map fun token => lexer.tokens ++ [token]
  | _ => none

/-- The tokens that are found from a place on, and those before. -/
def rest? (lexer : Lexer) (t : Text) : Option (List Token) := (t.foldlM step lexer).bind finish?

end Lexer

/-- The tokens of a text. -/
def lex? (t : Text) : Option (List Token) := Lexer.rest? ⟨[], .between⟩ t

variable {token : Token} {tokens done : List Token} {word known forms digits s t : Text} {m : Mark}
  {c : Char} {high? : Option Nat} {code : Nat} {place : Place} {lexer lexer' : Lexer}

theorem mark?_eq_some_iff : mark? c = some m ↔ m.char = c := by
  constructor
  · intro found
    simpa using List.find?_some found
  · rintro rfl
    cases m <;> rfl

theorem charOf?_eq_some_iff : charOf? code = some c ↔ c.toNat = code := by
  unfold charOf?
  constructor
  · intro found
    split at found
    · next same => exact Option.some.inj found ▸ same
    · cases found
  · rintro rfl
    rw [Char.ofNat_toNat, if_pos rfl]

theorem lookup_shortEscapes_iff {letter : Char} :
    shortEscapes.lookup letter = some c ↔ (letter, c) ∈ shortEscapes := by
  constructor
  · intro found
    obtain ⟨front, back, split, -⟩ := List.lookup_eq_some_iff.mp found
    simp [split]
  · intro member
    simp only [shortEscapes, List.mem_cons, Prod.mk.injEq, List.not_mem_nil, or_false] at member
    rcases member with ⟨rfl, rfl⟩ | ⟨rfl, rfl⟩ | ⟨rfl, rfl⟩ | ⟨rfl, rfl⟩ | ⟨rfl, rfl⟩ | ⟨rfl, rfl⟩ |
      ⟨rfl, rfl⟩ | ⟨rfl, rfl⟩ <;> rfl

/-! ## The tokens that are found are there -/

/-- The escape of the first one of a pair of surrogates, if it has been read. -/
inductive HighForm : Option Nat → Text → Prop
  | none : HighForm none []
  | some {high : Nat} {digits : Text} : high < surrogates → IsCode digits (firstHigh + high) →
      HighForm (some high) ('\\' :: 'u' :: digits)

/-- What has been read of a token that is not complete. -/
inductive Place.Holds : Place → Text → Prop
  | between : Holds .between []
  | word (word : Text) : Holds (.word word) word
  | string {known forms high : Text} {high? : Option Nat} :
      CharsForm known forms → HighForm high? high →
      Holds (.string known high?) ('"' :: (forms ++ high))
  | escape {known forms high : Text} {high? : Option Nat} :
      CharsForm known forms → HighForm high? high →
      Holds (.escape known high?) ('"' :: (forms ++ high ++ ['\\']))
  | code {known forms high : Text} {high? : Option Nat} (digits : Text) :
      CharsForm known forms → HighForm high? high → digits.length < 4 →
      Holds (.code known high? digits) ('"' :: (forms ++ high ++ '\\' :: 'u' :: digits))

/-- What has been read: complete tokens, and a part of one more. -/
def Lexer.Holds (lexer : Lexer) (t : Text) : Prop :=
  ∃ front back, Layout lexer.tokens front ∧ lexer.place.Holds back ∧ t = front ++ back

/-- A character more is known of a string. -/
theorem Place.Holds.char {form : Text} (chars : CharsForm known forms) (charForm : CharForm c form) :
    Place.Holds (.string (known ++ [c]) none) ('"' :: (forms ++ form)) := by
  have whole := Place.Holds.string (chars.append charForm.single) .none
  rwa [List.append_nil] at whole

/-- The code of an escape is a character, or the first one of a pair of surrogates. -/
theorem Place.Holds.ofCode? {high : Text} (chars : CharsForm known forms)
    (first : HighForm high? high) (isCode : IsCode digits code)
    (found : Place.ofCode? known high? code = some place) :
    place.Holds ('"' :: (forms ++ high ++ '\\' :: 'u' :: digits)) := by
  cases first with
  | none =>
    rw [List.append_nil]
    simp only [Place.ofCode?] at found
    split at found
    · next surrogate =>
      obtain rfl := Option.some.inj found
      have same : firstHigh + (code - firstHigh) = code := by omega
      exact .string chars (.some (by omega) (by rwa [same]))
    · obtain ⟨c, char, rfl⟩ := Option.map_eq_some_iff.mp found
      obtain rfl := charOf?_eq_some_iff.mp char
      exact .char chars (.code isCode)
  | @some high digits' small isCode' =>
    simp only [Place.ofCode?] at found
    split at found
    · next surrogate =>
      obtain ⟨c, char, rfl⟩ := Option.map_eq_some_iff.mp found
      have same : firstLow + (code - firstLow) = code := by omega
      have value := charOf?_eq_some_iff.mp char
      rw [List.append_assoc]
      exact .char chars (.pair small (by omega) isCode' (by rwa [same]) value)
    · cases found

namespace Lexer

/-- A character starts a token, is one, or stands between tokens. -/
theorem Holds.start (layout : Layout tokens t) (started : start tokens c = some lexer) :
    lexer.Holds (t ++ [c]) := by
  unfold Lexer.start at started
  split at started
  · next blank =>
    obtain rfl := Option.some.inj started
    refine ⟨t ++ [c], [], ?_, .between, by simp⟩
    have whole := layout.append (.space blank .nil)
    rwa [List.append_nil] at whole
  split at started
  · next quote =>
    obtain rfl := Option.some.inj started
    exact ⟨t, [c], layout, quote ▸ .string .nil .none, rfl⟩
  split at started
  · obtain rfl := Option.some.inj started
    exact ⟨t, [c], layout, .word [c], rfl⟩
  · obtain ⟨m, found, rfl⟩ := Option.map_eq_some_iff.mp started
    obtain rfl := mark?_eq_some_iff.mp found
    exact ⟨t ++ [m.char], [], layout.append (.mark m .nil), .between, by simp⟩

/-- A part of a token goes on. -/
theorem Holds.goes_on {front back : Text} (layout : Layout tokens front)
    (inside : place.Holds (back ++ [c])) : Lexer.Holds ⟨tokens, place⟩ (front ++ back ++ [c]) :=
  ⟨front, back ++ [c], layout, inside, List.append_assoc ..⟩

theorem Holds.of_string {front high : Text} (layout : Layout tokens front)
    (chars : CharsForm known forms) (first : HighForm high? high)
    (stepped : step ⟨tokens, .string known high?⟩ c = some lexer) :
    lexer.Holds (front ++ '"' :: (forms ++ high) ++ [c]) := by
  simp only [Lexer.step] at stepped
  split at stepped
  · next backslash =>
    obtain rfl := Option.some.inj stepped
    subst backslash
    exact .goes_on layout (.escape chars first)
  split at stepped
  · cases stepped
  next none' =>
  -- No surrogate waits for its second one.
  obtain rfl := Decidable.not_not.mp none'
  cases first
  split at stepped
  · next quote =>
    obtain rfl := Option.some.inj stepped
    subst quote
    exact ⟨_, [], layout.append (.single ⟨_, chars, rfl⟩), .between, by simp⟩
  split at stepped
  · next plain =>
    obtain rfl := Option.some.inj stepped
    apply Holds.goes_on layout
    simpa using Place.Holds.char chars (.plain plain)
  · cases stepped

theorem Holds.of_escape {front high : Text} (layout : Layout tokens front)
    (chars : CharsForm known forms) (first : HighForm high? high)
    (stepped : step ⟨tokens, .escape known high?⟩ c = some lexer) :
    lexer.Holds (front ++ '"' :: (forms ++ high ++ ['\\']) ++ [c]) := by
  simp only [Lexer.step] at stepped
  split at stepped
  · next coded =>
    obtain rfl := Option.some.inj stepped
    subst coded
    apply Holds.goes_on layout
    simpa using Place.Holds.code [] chars first (by decide)
  split at stepped
  · cases stepped
  next none' =>
  obtain rfl := Decidable.not_not.mp none'
  cases first
  obtain ⟨d, found, rfl⟩ := Option.map_eq_some_iff.mp stepped
  have short := CharForm.short (lookup_shortEscapes_iff.mp found)
  apply Holds.goes_on layout
  simpa using Place.Holds.char chars short

theorem Holds.of_code {front high : Text} (layout : Layout tokens front)
    (chars : CharsForm known forms) (first : HighForm high? high) (short : digits.length < 4)
    (stepped : step ⟨tokens, .code known high? digits⟩ c = some lexer) :
    lexer.Holds (front ++ '"' :: (forms ++ high ++ '\\' :: 'u' :: digits) ++ [c]) := by
  have size : (digits ++ [c]).length = digits.length + 1 := List.length_append
  simp only [Lexer.step] at stepped
  split at stepped
  · obtain rfl := Option.some.inj stepped
    apply Holds.goes_on layout
    simpa using Place.Holds.code (digits ++ [c]) chars first (by omega)
  · obtain ⟨place, found, rfl⟩ := Option.map_eq_some_iff.mp stepped
    obtain ⟨code, value, found⟩ := Option.bind_eq_some_iff.mp found
    have isCode : IsCode (digits ++ [c]) code := ⟨by omega, value⟩
    apply Holds.goes_on layout
    simpa using Place.Holds.ofCode? chars first isCode found

/-- A step takes what has been read before it to what has been read behind it. -/
theorem Holds.step (holds : lexer.Holds t) (stepped : lexer.step c = some lexer') :
    lexer'.Holds (t ++ [c]) := by
  obtain ⟨tokens, place⟩ := lexer
  obtain ⟨front, back, layout, inside, rfl⟩ := holds
  cases inside with
  | between =>
    rw [List.append_nil]
    exact Holds.start layout stepped
  | word word =>
    simp only [Lexer.step] at stepped
    split at stepped
    · obtain rfl := Option.some.inj stepped
      exact .goes_on layout (.word _)
    · obtain ⟨token, found, started⟩ := Option.bind_eq_some_iff.mp stepped
      exact Holds.start (layout.append (.single (form_of_word? found))) started
  | string chars first => exact Holds.of_string layout chars first stepped
  | escape chars first => exact Holds.of_escape layout chars first stepped
  | code digits chars first short => exact Holds.of_code layout chars first short stepped

theorem Holds.foldlM {s : Text} (holds : lexer.Holds s)
    (run : t.foldlM Lexer.step lexer = some lexer') : lexer'.Holds (s ++ t) := by
  induction t generalizing lexer s with
  | nil =>
    obtain rfl := Option.some.inj run
    rwa [List.append_nil]
  | cons c t ih =>
    rw [List.foldlM_cons] at run
    obtain ⟨next, step, run⟩ := Option.bind_eq_some_iff.mp run
    have whole := ih (holds.step step) run
    rwa [List.append_assoc] at whole

/-- The tokens that are found are laid out in what has been read. -/
theorem Holds.finish? (holds : lexer.Holds t) (finished : lexer.finish? = some tokens) :
    Layout tokens t := by
  obtain ⟨done, place⟩ := lexer
  obtain ⟨front, back, layout, inside, rfl⟩ := holds
  cases inside with
  | between =>
    obtain rfl := Option.some.inj finished
    rwa [List.append_nil]
  | word word =>
    obtain ⟨token, found, rfl⟩ := Option.map_eq_some_iff.mp finished
    exact layout.append (.single (form_of_word? found))
  | string | escape | code => cases finished

end Lexer

/-- The tokens that are found in a text are laid out in it. -/
theorem layout_of_lex? (found : lex? t = some tokens) : Layout tokens t := by
  obtain ⟨lexer, run, finished⟩ := Option.bind_eq_some_iff.mp found
  have nothing : Lexer.Holds ⟨[], .between⟩ [] := ⟨[], [], .nil, .between, rfl⟩
  exact (nothing.foldlM run).finish? finished

/-! ## The tokens that are there are found -/

theorem isWordChar_of_isSpace (blank : isSpace c) : isWordChar c = false := by
  simp only [isSpace, Bool.or_eq_true, decide_eq_true_eq] at blank
  obtain ((rfl | rfl) | rfl) | rfl := blank <;> decide

theorem isWordChar_char (m : Mark) : isWordChar m.char = false := by cases m <;> decide

namespace Lexer

theorem start_char (m : Mark) (tokens : List Token) :
    start tokens m.char = some ⟨tokens ++ [.mark m], .between⟩ := by
  cases m <;> rfl

theorem start_wordChar (inside : isWordChar c) (tokens : List Token) :
    start tokens c = some ⟨tokens, .word [c]⟩ := by
  have space : isSpace c ≠ true := by
    intro blank
    rw [isWordChar_of_isSpace blank] at inside
    cases inside
  have quote : c ≠ '"' := by
    rintro rfl
    exact absurd inside (by decide)
  rw [start, if_neg space, if_neg quote, if_pos inside]

theorem rest?_cons (lexer : Lexer) (c : Char) (t : Text) :
    rest? lexer (c :: t) = (lexer.step c).bind fun next => rest? next t := by
  rw [rest?, List.foldlM_cons]
  exact Option.bind_assoc ..

theorem rest?_append (run : s.foldlM step lexer = some lexer') (t : Text) :
    rest? lexer (s ++ t) = rest? lexer' t := by
  rw [rest?, List.foldlM_append, run]
  rfl

/-- An escape by a code is read as the code. -/
theorem foldlM_code (isCode : IsCode digits code) :
    ('\\' :: 'u' :: digits).foldlM step ⟨done, .string known high?⟩ =
      (Place.ofCode? known high? code).map fun place => ⟨done, place⟩ := by
  obtain ⟨four, value⟩ := isCode
  obtain ⟨a, b, c, d, rfl⟩ : ∃ a b c d, digits = [a, b, c, d] := by
    match digits, four with
    | [a, b, c, d], _ => exact ⟨a, b, c, d, rfl⟩
  simp [step, value]

/-- No character has the code of a surrogate. -/
theorem ofCode?_toNat (c : Char) :
    Place.ofCode? known none c.toNat = some (.string (known ++ [c]) none) := by
  have single : ¬ (firstHigh ≤ c.toNat ∧ c.toNat < firstHigh + surrogates) := by
    have valid : c.toNat < 0xd800 ∨ 0xdfff < c.toNat ∧ c.toNat < 0x110000 := c.valid
    simp only [firstHigh, surrogates]
    omega
  simp only [Place.ofCode?]
  rw [if_neg single, charOf?_eq_some_iff.mpr rfl]
  rfl

theorem ofCode?_high {high : Nat} (small : high < surrogates) :
    Place.ofCode? known none (firstHigh + high) = some (.string known (some high)) := by
  simp [Place.ofCode?, small]

theorem ofCode?_low {high low : Nat} (small : low < surrogates)
    (value : c.toNat = 0x10000 + surrogates * high + low) :
    Place.ofCode? known (some high) (firstLow + low) = some (.string (known ++ [c]) none) := by
  simp [Place.ofCode?, small, charOf?_eq_some_iff.mpr value]

theorem foldlM_charForm (form : CharForm c t) :
    t.foldlM step ⟨done, .string known none⟩ = some ⟨done, .string (known ++ [c]) none⟩ := by
  cases form with
  | plain plain =>
    have quote : c ≠ '"' := by
      rintro rfl
      exact absurd plain (by decide)
    have backslash : c ≠ '\\' := by
      rintro rfl
      exact absurd plain (by decide)
    simp [step, quote, backslash, plain]
  | @short letter c short =>
    have other : letter ≠ 'u' := by
      rintro rfl
      simp [shortEscapes] at short
    simp [step, other, lookup_shortEscapes_iff.mpr short]
  | code isCode =>
    rw [foldlM_code isCode, ofCode?_toNat]
    rfl
  | pair small small' isCode isCode' value =>
    rw [List.foldlM_append, foldlM_code isCode, ofCode?_high small, Option.map_some]
    simp only [Option.bind_eq_bind, Option.bind_some]
    rw [foldlM_code isCode', ofCode?_low small' value]
    rfl

theorem foldlM_charsForm (chars : CharsForm s t) :
    t.foldlM step ⟨done, .string known none⟩ = some ⟨done, .string (known ++ s) none⟩ := by
  induction chars generalizing known with
  | nil => simp
  | cons form chars ih =>
    rw [List.foldlM_append, foldlM_charForm form]
    simp [ih]

theorem foldlM_word (inside : ∀ c ∈ t, isWordChar c) :
    t.foldlM step ⟨done, .word word⟩ = some ⟨done, .word (word ++ t)⟩ := by
  induction t generalizing word with
  | nil => simp
  | cons c t ih =>
    obtain ⟨first, others⟩ := List.forall_mem_cons.mp inside
    simp [step, first, ih others]

/-- A word ends in front of a character that cannot be part of it. -/
theorem rest?_word (found : word? word = some token) (apart : ∀ c ∈ t.head?, ¬ isWordChar c) :
    rest? ⟨done, .word word⟩ t = rest? ⟨done ++ [token], .between⟩ t := by
  cases t with
  | nil => simp [rest?, finish?, found]
  | cons c t =>
    have outside := apart c rfl
    simp [rest?_cons, step, outside, found]

/-- A token is read in each of its written forms. A word is not to go on behind it. -/
theorem rest?_form (form : token.Form s)
    (apart : (∃ m, token = .mark m) ∨ ∀ c ∈ t.head?, ¬ isWordChar c) :
    rest? ⟨done, .between⟩ (s ++ t) = rest? ⟨done ++ [token], .between⟩ t := by
  by_cases mark : ∃ m, token = .mark m
  · obtain ⟨m, rfl⟩ := mark
    obtain rfl := form
    apply rest?_append
    simp [step, start_char]
  by_cases string : ∃ value, token = .string value
  · obtain ⟨value, rfl⟩ := string
    obtain ⟨forms, chars, rfl⟩ := form
    apply rest?_append
    have opened : step ⟨done, .between⟩ '"' = some ⟨done, .string [] none⟩ := rfl
    have closed : step ⟨done, .string value none⟩ '"' =
        some ⟨done ++ [.string value], .between⟩ := rfl
    simp [opened, foldlM_charsForm chars, closed]
  · obtain ⟨found, some, inside⟩ := word?_of_form form (not_exists.mp mark) (not_exists.mp string)
    obtain ⟨c, s, rfl⟩ := List.exists_cons_of_ne_nil some
    obtain ⟨first, others⟩ := List.forall_mem_cons.mp inside
    have opened : step ⟨done, .between⟩ c = Option.some ⟨done, .word [c]⟩ := start_wordChar first done
    have run : (c :: s).foldlM step ⟨done, .between⟩ = Option.some ⟨done, .word (c :: s)⟩ := by
      simp [opened, foldlM_word others]
    rw [rest?_append run, rest?_word found (apart.resolve_left mark)]

/-- A layout starts with a space or with its first token. -/
theorem not_isWordChar_of_layout (layout : Layout tokens t)
    (first : ∀ token ∈ tokens.head?, ∃ m, token = .mark m) : ∀ c ∈ t.head?, ¬ isWordChar c := by
  cases layout with
  | nil => simp
  | @space tokens c t blank layout =>
    intro d same
    obtain rfl := Option.some.inj same
    simp [isWordChar_of_isSpace blank]
  | cons form layout =>
    obtain ⟨m, rfl⟩ := first _ rfl
    obtain rfl := form
    intro d same
    obtain rfl := Option.some.inj same
    simp [isWordChar_char]

/-- A layout is read as its tokens. -/
theorem rest?_layout (layout : Layout tokens t) (apart : tokens.IsChain Apart) :
    rest? ⟨done, .between⟩ t = some (done ++ tokens) := by
  induction layout generalizing done with
  | nil => simp [rest?, finish?]
  | @space tokens c t blank layout ih =>
    have passed : step ⟨done, .between⟩ c = some ⟨done, .between⟩ := if_pos blank
    rw [rest?_cons, passed]
    exact ih apart
  | @cons token tokens form t isForm layout ih =>
    obtain ⟨next, apart⟩ := List.isChain_cons.mp apart
    rw [rest?_form isForm, ih apart, List.append_assoc, List.singleton_append]
    by_cases mark : ∃ m, token = .mark m
    · exact Or.inl mark
    · right
      apply not_isWordChar_of_layout layout
      intro later member
      exact (next later member).resolve_left mark

end Lexer

/-- The tokens of a text are those that are laid out in it, if there is a sign between any two that
are no signs. -/
theorem lex?_eq_some_iff (apart : tokens.IsChain Apart) :
    lex? t = some tokens ↔ Layout tokens t := by
  constructor
  · exact layout_of_lex?
  · intro layout
    exact Lexer.rest?_layout layout apart

end RulePruner.Json
