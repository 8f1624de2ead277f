import RulePruner.Proofs.Pattern.Language

/-!
# Reading expressions

A reader of written expressions that takes one character after the other and refuses what it has no
rule for. It knows literal characters, backslashes, blanks, negated classes, groups and repetitions.
The main statement is `Pattern.exists_read?_text`: what is read off the text of an expression stands
for the same texts as the expression.
-/

namespace RulePruner.Pattern

/-- What the next character is read as. -/
inductive Mode where
  /-- The start of an expression, or a sign behind one. -/
  | ready
  /-- The character behind a backslash. -/
  | escaped
  /-- The question mark behind an opening parenthesis. -/
  | asking
  /-- The colon behind that question mark. -/
  | grouping
  /-- The caret behind an opening bracket. -/
  | negating
  /-- One more character of a negated class, or the bracket that closes it. -/
  | excluding (excluded : Text)
  deriving DecidableEq, Repr

/-- A reader between two characters. -/
structure Reader where
  /-- What was read before each group that is still open, the innermost first. -/
  outer : List (List Pattern)
  /-- What was read in the innermost open group, the last expression first. -/
  items : List Pattern
  /-- What comes next. -/
  mode : Mode
  deriving DecidableEq, Repr

/-- The characters that have a meaning of their own in a class. -/
def classCharacters : Text := ['\\', '[', ']', '^', '-', '&', '~']

namespace Reader

/-- A reader that has read nothing. -/
def start : Reader := ⟨[], [], .ready⟩

/-- The reader behind one more expression. -/
def push (r : Reader) (item : Pattern) : Reader := ⟨r.outer, item :: r.items, .ready⟩

/-- A closing parenthesis makes one expression of the innermost group. -/
def close (r : Reader) : Option Reader :=
  match r.outer with
  | [] => none
  | items :: outer => some ⟨outer, sequence r.items :: items, .ready⟩

/-- A star repeats the last expression. -/
def repeatLast (r : Reader) : Option Reader :=
  match r.items with
  | [] => none
  | item :: items => some ⟨r.outer, many item :: items, .ready⟩

/-- The reader one character on. A character with a meaning of its own stands for itself only behind
a backslash. -/
def step (r : Reader) (c : Char) : Option Reader :=
  match r.mode with
  | .ready =>
    if c = '\\' then some { r with mode := .escaped }
    else if c = '(' then some { r with mode := .asking }
    else if c = '[' then some { r with mode := .negating }
    else if c = ')' then r.close
    else if c = '*' then r.repeatLast
    else if c ∈ metaCharacters then none
    else some (r.push (literal [c]))
  | .escaped =>
    if c = 's' then some (r.push blank)
    else if c ∈ metaCharacters then some (r.push (literal [c]))
    else none
  | .asking => if c = '?' then some { r with mode := .grouping } else none
  | .grouping => if c = ':' then some ⟨r.items :: r.outer, [], .ready⟩ else none
  | .negating => if c = '^' then some { r with mode := .excluding [] } else none
  | .excluding excluded =>
    if c = ']' && !excluded.isEmpty then some (r.push (noneOf excluded))
    else if c ∈ classCharacters then none
    else some { r with mode := .excluding (excluded ++ [c]) }

/-- What was read, if no group or class is open. -/
def finish? (r : Reader) : Option Pattern :=
  if r.outer = [] ∧ r.mode = .ready then some (sequence r.items) else none

end Reader

/-- The expression that a text is written for. -/
def read? (t : Text) : Option Pattern := (t.foldlM Reader.step Reader.start).bind Reader.finish?

/-- An expression that can be written down: no class names a character with a meaning of its own
there, and each names at least one character. -/
def Writable : Pattern → Prop
  | noneOf excluded => excluded ≠ [] ∧ ∀ c ∈ excluded, c ∉ classCharacters
  | followedBy first second => first.Writable ∧ second.Writable
  | many item => item.Writable
  | _ => True

namespace Reader

/-- A text is read as a list of expressions, the last one first, wherever an expression can start.
-/
def Reads (t : Text) (found : List Pattern) : Prop :=
  ∀ outer items, t.foldlM step ⟨outer, items, .ready⟩ = some ⟨outer, found ++ items, .ready⟩

variable {s t : Text} {found later : List Pattern} {item : Pattern}

theorem reads_nil : Reads [] [] := fun _ _ => rfl

theorem Reads.append (first : Reads s found) (second : Reads t later) :
    Reads (s ++ t) (later ++ found) := by
  intro outer items
  rw [List.foldlM_append, first, Option.bind_eq_bind, Option.bind_some, second, List.append_assoc]

theorem Reads.group (inside : Reads t found) :
    Reads (['(', '?', ':'] ++ t ++ [')']) [sequence found] := by
  intro outer items
  simp [step, inside (items :: outer) [], close]

theorem Reads.star (single : Reads t [item]) : Reads (t ++ ['*']) [many item] := by
  intro outer items
  simp [single outer items, step, repeatLast]

/-- A character and the backslash that it may need are read as the character. -/
theorem reads_escapeChar (c : Char) : Reads (escapeChar c) [literal [c]] := by
  intro outer items
  unfold escapeChar
  split
  · rename_i special
    have notBlank : c ≠ 's' := by
      rintro rfl
      exact absurd special (by decide)
    simp [step, push, notBlank, special]
  · rename_i plain
    have named (d : Char) (special : d ∈ metaCharacters) : c ≠ d := by
      rintro rfl
      exact plain special
    simp [step, push, plain, named '\\' (by decide), named '(' (by decide), named '[' (by decide),
      named ')' (by decide), named '*' (by decide)]

theorem reads_escape (t : Text) : Reads (escape t) (t.map fun c => literal [c]).reverse := by
  induction t with
  | nil => exact reads_nil
  | cons c t ih =>
    rw [List.map_cons, List.reverse_cons]
    exact (reads_escapeChar c).append ih

theorem reads_blank : Reads blank.text [blank] := fun _ _ => rfl

/-- The characters of a class are taken up to its end. -/
theorem foldlM_excluding {outer : List (List Pattern)} {items : List Pattern} {cs excluded : Text}
    (plain : ∀ c ∈ cs, c ∉ classCharacters) :
    cs.foldlM step ⟨outer, items, .excluding excluded⟩ =
      some ⟨outer, items, .excluding (excluded ++ cs)⟩ := by
  induction cs generalizing excluded with
  | nil => simp
  | cons c cs ih =>
    obtain ⟨plain, later⟩ := List.forall_mem_cons.mp plain
    have inside : c ≠ ']' := by
      rintro rfl
      exact plain (by decide)
    simp [step, plain, inside, ih later]

theorem reads_noneOf {excluded : Text} (writable : Writable (noneOf excluded)) :
    Reads (noneOf excluded).text [noneOf excluded] := by
  obtain ⟨named, plain⟩ := writable
  intro outer items
  simp [text, step, foldlM_excluding plain, push, named]

end Reader

open Reader

theorem denotes_sequence_literal_iff {s t : Text} :
    Denotes (sequence (s.map fun c => literal [c]).reverse) t ↔ t = s := by
  induction s generalizing t with
  | nil => simp [sequence]
  | cons c s ih => simp [denotes_sequence_append_iff, ih]

/-- The text of an expression is read as expressions that stand for the same texts. -/
theorem exists_reads_text {p : Pattern} (writable : p.Writable) :
    ∃ found, Reads p.text found ∧ Equivalent (sequence found) p := by
  induction p with
  | literal s =>
    refine ⟨_, reads_escape s, fun t => ?_⟩
    rw [denotes_sequence_literal_iff, denotes_literal_iff]
  | blank => exact ⟨[blank], reads_blank, fun t => denotes_sequence_singleton_iff⟩
  | noneOf excluded =>
    exact ⟨[noneOf excluded], reads_noneOf writable, fun t => denotes_sequence_singleton_iff⟩
  | followedBy first second ihFirst ihSecond =>
    obtain ⟨found, reads, same⟩ := ihFirst writable.1
    obtain ⟨later, reads', same'⟩ := ihSecond writable.2
    refine ⟨later ++ found, reads.append reads', fun t => ?_⟩
    simp only [denotes_sequence_append_iff, denotes_followedBy_iff, same _, same' _]
  | many item ih =>
    -- A single sign is repeated as it stands, everything else in a group.
    obtain ⟨repeated, reads, same⟩ :
        ∃ repeated, Reads (if item.isSign then item.text else ['(', '?', ':'] ++ item.text ++ [')'])
          [repeated] ∧ Equivalent repeated item := by
      cases item with
      | blank => exact ⟨blank, reads_blank, fun t => Iff.rfl⟩
      | noneOf excluded => exact ⟨noneOf excluded, reads_noneOf writable, fun t => Iff.rfl⟩
      | _ =>
        obtain ⟨found, reads, same⟩ := ih writable
        exact ⟨sequence found, reads.group, same⟩
    refine ⟨[many repeated], reads.star, fun t => ?_⟩
    rw [denotes_sequence_singleton_iff]
    exact same.many t

/-- What is read off the text of an expression stands for the same texts as the expression. -/
theorem exists_read?_text {p : Pattern} (writable : p.Writable) :
    ∃ found, read? p.text = some found ∧ Equivalent found p := by
  obtain ⟨found, reads, same⟩ := exists_reads_text writable
  refine ⟨sequence found, ?_, same⟩
  rw [read?, start, reads]
  simp [finish?]

-- Without a group the last sign alone is repeated, and there is no rule for alternatives.
example : read? "ab*".toList = some (sequence [many (literal ['b']), literal ['a']]) := rfl

example : read? "a|b".toList = none := rfl

end RulePruner.Pattern
