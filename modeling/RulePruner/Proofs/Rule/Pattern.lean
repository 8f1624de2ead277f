import RulePruner.Proofs.Pattern.Reader
import RulePruner.Proofs.Rule.Leftmost

/-!
# The pattern of a class

What the pattern of a class stands for once it is written down and read again: the rules of the
class for the fast strategy, with the name character for character (`Pattern.denotes_rule_iff`). The
main statement is `Rule.spans_fast_denoted`: the spans of the fast strategy are the leftmost texts
that the pattern stands for, and no two of them start at one place.
-/

namespace RulePruner

namespace Block

open Text

variable {deepest : Option Nat}

/-- A text from an opening brace to the brace that closes it, with one or two braces open in
between. -/
structure OneLevel (t : Text) : Prop where
  opens : t.head? = some '{'
  closed : depth t = 0
  inside : ∀ p, p <+: t → p ≠ [] → p ≠ t → 1 ≤ depth p ∧ depth p ≤ 2

theorem isBlock_two_iff_oneLevel {t : Text} : IsBlock (some 2) t ↔ OneLevel t := by
  constructor
  · rintro ⟨opens, closed, inside, shallow⟩
    exact ⟨opens, closed, fun p front start proper =>
      ⟨inside p front start proper, shallow 2 rfl p front⟩⟩
  · rintro ⟨opens, closed, inside⟩
    refine ⟨opens, closed, fun p front start proper => (inside p front start proper).1, ?_⟩
    rintro limit given p front
    obtain rfl : 2 = limit := by simpa using given
    by_cases start : p = []
    · simp [start]
    · by_cases whole : p = t
      · simp [whole, closed]
      · exact (inside p front start whole).2

section Closes

variable {level : Int} {c : Char} {body : Text}

/-- A character other than a brace changes nothing about the braces that are open. -/
theorem closes_other_iff (positive : 0 < level) (roomy : ∀ limit ∈ deepest, level ≤ limit)
    (notOpen : c ≠ '{') (notClose : c ≠ '}') :
    Closes deepest level (c :: body) ↔ Closes deepest level body := by
  rw [closes_cons_iff positive roomy, weight_other notOpen notClose, Int.add_zero,
    if_neg (by omega)]

theorem closes_braceFree_append_iff {free : Text} (positive : 0 < level)
    (roomy : ∀ limit ∈ deepest, level ≤ limit) (isFree : BraceFree free) :
    Closes deepest level (free ++ body) ↔ Closes deepest level body := by
  induction free with
  | nil => rfl
  | cons c free ih =>
    obtain ⟨⟨notOpen, notClose⟩, later⟩ := braceFree_cons.mp isFree
    rw [List.cons_append, closes_other_iff positive roomy notOpen notClose, ih later]

/-- With one brace open, an opening brace starts an inner block. -/
theorem closes_one_open_iff : Closes (some 2) 1 ('{' :: body) ↔ Closes (some 2) 2 body := by
  rw [closes_cons_iff (by decide) (by simp)]
  simp

/-- With one brace open, a closing brace is the end. -/
theorem closes_one_close_iff : Closes (some 2) 1 ('}' :: body) ↔ body = [] := by
  rw [closes_cons_iff (by decide) (by simp)]
  simp

/-- An inner block holds no further one. -/
theorem not_closes_two_open : ¬ Closes (some 2) 2 ('{' :: body) := by
  rw [closes_cons_iff (by decide) (by simp)]
  intro closes
  have deep := Closes.shallow (by simpa using closes) 2 rfl [] List.nil_prefix
  simp at deep

/-- A closing brace ends an inner block. -/
theorem closes_two_close_iff : Closes (some 2) 2 ('}' :: body) ↔ Closes (some 2) 1 body := by
  rw [closes_cons_iff (by decide) (by simp)]
  simp

end Closes

end Block

namespace Pattern

open Text Block

variable {t : Text}

theorem denotes_plain_iff : Denotes plain t ↔ BraceFree t := by
  rw [plain, denotes_many_iff_forall fun _ => denotes_noneOf_iff]
  constructor
  · intro all
    exact ⟨fun opens => all '{' opens (by simp), fun closes => all '}' closes (by simp)⟩
  · rintro ⟨noOpen, noClose⟩ c member excluded
    have brace : c = '{' ∨ c = '}' := by simpa using excluded
    rcases brace with rfl | rfl
    · exact noOpen member
    · exact noClose member

theorem denotes_blanks_iff : Denotes (many blank) t ↔ ∀ c ∈ t, isBlank c :=
  denotes_many_iff_forall fun _ => denotes_blank_iff

theorem denotes_braced_iff {inside : Pattern} :
    Denotes (braced inside) t ↔ ∃ s, t = '{' :: s ++ ['}'] ∧ Denotes inside s := by
  simp [braced, denotes_followedBy_iff]

/-- An inner block and what follows it up to the next brace. -/
def group : Pattern := followedBy (braced plain) plain

/-- What stands between the braces of `shallowBlock`. -/
def shallowBody : Pattern := followedBy plain (many group)

theorem denotes_group_iff :
    Denotes group t ↔ ∃ inner after, t = '{' :: inner ++ '}' :: after ∧ BraceFree inner ∧
      BraceFree after := by
  simp only [group, denotes_followedBy_iff, denotes_braced_iff, denotes_plain_iff]
  constructor
  · rintro ⟨_, after, rfl, ⟨inner, rfl, innerFree⟩, afterFree⟩
    exact ⟨inner, after, by simp, innerFree, afterFree⟩
  · rintro ⟨inner, after, rfl, innerFree, afterFree⟩
    exact ⟨_, after, by simp, ⟨inner, rfl, innerFree⟩, afterFree⟩

theorem denotes_shallowBody_iff :
    Denotes shallowBody t ↔ ∃ free rest, t = free ++ rest ∧ BraceFree free ∧
      Denotes (many group) rest := by
  simp only [shallowBody, denotes_followedBy_iff, denotes_plain_iff]

theorem shallowBody_nil : Denotes shallowBody [] :=
  denotes_shallowBody_iff.mpr ⟨[], [], rfl, by simp [BraceFree], .none⟩

theorem shallowBody_cons {c : Char} (notOpen : c ≠ '{') (notClose : c ≠ '}')
    (denoted : Denotes shallowBody t) : Denotes shallowBody (c :: t) := by
  obtain ⟨free, rest, rfl, isFree, groups⟩ := denotes_shallowBody_iff.mp denoted
  exact denotes_shallowBody_iff.mpr
    ⟨c :: free, rest, rfl, braceFree_cons.mpr ⟨⟨notOpen, notClose⟩, isFree⟩, groups⟩

theorem shallowBody_block {inner : Text} (innerFree : BraceFree inner)
    (denoted : Denotes shallowBody t) : Denotes shallowBody ('{' :: inner ++ '}' :: t) := by
  obtain ⟨after, rest, rfl, afterFree, groups⟩ := denotes_shallowBody_iff.mp denoted
  have block := denotes_group_iff.mpr ⟨inner, after, rfl, innerFree, afterFree⟩
  refine denotes_shallowBody_iff.mpr ⟨[], _, rfl, by simp [BraceFree], ?_⟩
  simpa using Denotes.more block groups

/-- A body that closes a block may start with an inner block. -/
theorem closes_group_append_iff {body : Text} (denoted : Denotes group t) :
    Closes (some 2) 1 (t ++ body) ↔ Closes (some 2) 1 body := by
  obtain ⟨inner, after, rfl, innerFree, afterFree⟩ := denotes_group_iff.mp denoted
  rw [List.append_assoc, List.cons_append, List.cons_append]
  calc Closes (some 2) 1 ('{' :: (inner ++ '}' :: (after ++ body)))
      ↔ Closes (some 2) 2 (inner ++ '}' :: (after ++ body)) := closes_one_open_iff
    _ ↔ Closes (some 2) 2 ('}' :: (after ++ body)) :=
        closes_braceFree_append_iff (by decide) (by simp) innerFree
    _ ↔ Closes (some 2) 1 (after ++ body) := closes_two_close_iff
    _ ↔ Closes (some 2) 1 body :=
        closes_braceFree_append_iff (by decide) (by simp) afterFree

theorem closes_groups_append_iff {body : Text} (denoted : Denotes (many group) t) :
    Closes (some 2) 1 (t ++ body) ↔ Closes (some 2) 1 body := by
  refine many_induction (motive := fun t => Closes (some 2) 1 (t ++ body) ↔ _) Iff.rfl ?_ denoted
  intro s t denoted ih
  rw [List.append_assoc, closes_group_append_iff denoted, ih]

theorem closes_of_shallowBody (denoted : Denotes shallowBody t) :
    Closes (some 2) 1 (t ++ ['}']) := by
  obtain ⟨free, rest, rfl, isFree, groups⟩ := denotes_shallowBody_iff.mp denoted
  rw [List.append_assoc, closes_braceFree_append_iff (by decide) (by simp) isFree,
    closes_groups_append_iff groups, closes_one_close_iff]

/-- A body that closes a block is what may stand in the block and a brace; one that is read inside
an inner block first closes that one. -/
theorem exists_shallowBody_of_closes (body : Text) :
    (Closes (some 2) 1 body → ∃ s, body = s ++ ['}'] ∧ Denotes shallowBody s) ∧
      (Closes (some 2) 2 body → ∃ inner s, body = inner ++ '}' :: (s ++ ['}']) ∧
        BraceFree inner ∧ Denotes shallowBody s) := by
  induction body with
  | nil =>
    exact ⟨fun closes => absurd closes (not_closes_nil (by decide)),
      fun closes => absurd closes (not_closes_nil (by decide))⟩
  | cons c body ih =>
    obtain ⟨outside, inside⟩ := ih
    by_cases opens : c = '{'
    · subst opens
      refine ⟨fun closes => ?_, fun closes => absurd closes not_closes_two_open⟩
      obtain ⟨inner, s, rfl, innerFree, denoted⟩ := inside (closes_one_open_iff.mp closes)
      exact ⟨'{' :: inner ++ '}' :: s, by simp, shallowBody_block innerFree denoted⟩
    · by_cases closing : c = '}'
      · subst closing
        constructor
        · intro closes
          obtain rfl := closes_one_close_iff.mp closes
          exact ⟨[], rfl, shallowBody_nil⟩
        · intro closes
          obtain ⟨s, rfl, denoted⟩ := outside (closes_two_close_iff.mp closes)
          exact ⟨[], s, rfl, by simp [BraceFree], denoted⟩
      · rw [closes_other_iff (by decide) (by simp) opens closing,
          closes_other_iff (by decide) (by simp) opens closing]
        constructor
        · intro closes
          obtain ⟨s, rfl, denoted⟩ := outside closes
          exact ⟨c :: s, rfl, shallowBody_cons opens closing denoted⟩
        · intro closes
          obtain ⟨inner, s, rfl, innerFree, denoted⟩ := inside closes
          exact ⟨c :: inner, s, rfl, braceFree_cons.mpr ⟨⟨opens, closing⟩, innerFree⟩, denoted⟩

theorem denotes_shallowBlock_iff : Denotes shallowBlock t ↔ IsBlock (some 2) t := by
  rw [shallowBlock, denotes_braced_iff]
  constructor
  · rintro ⟨s, rfl, denoted⟩
    exact (isBlock_cons_iff (by simp)).mpr ⟨rfl, closes_of_shallowBody denoted⟩
  · intro isBlock
    obtain ⟨body, rfl⟩ := Rule.IsBlock.eq_cons isBlock
    obtain ⟨s, rfl, denoted⟩ :=
      (exists_shallowBody_of_closes body).1 ((isBlock_cons_iff (by simp)).mp isBlock).2
    exact ⟨s, rfl, denoted⟩

/-- The pattern of a class stands for the rules of the class for the fast strategy. -/
theorem denotes_rule_iff {name : Text} : Denotes (rule name) t ↔ Rule.IsRule .fast name t := by
  simp only [rule, denotes_followedBy_iff, denotes_literal_iff, denotes_blanks_iff,
    denotes_shallowBlock_iff]
  constructor
  · rintro ⟨_, _, rfl, rfl, s, block, rfl, blank, isBlock⟩
    exact ⟨_, block, (List.append_assoc _ _ _).symm, ⟨s, rfl, blank⟩, isBlock⟩
  · rintro ⟨_, block, rfl, ⟨s, rfl, blank⟩, isBlock⟩
    exact ⟨_, _, List.append_assoc _ _ _, rfl, s, block, rfl, blank, isBlock⟩

/-- The pattern as it is written, with the name escaped and put between two fixed texts. -/
theorem text_rule (name : Text) :
    (rule name).text = "\\.".toList ++ escape name ++
      "\\s*\\\x7b[^\x7b\x7d]*(?:\\\x7b[^\x7b\x7d]*\\\x7d[^\x7b\x7d]*)*\\\x7d".toList :=
  rfl

theorem writable_rule (name : Text) : Writable (rule name) := by
  simp [rule, shallowBlock, braced, plain, Writable, classCharacters]

end Pattern

namespace Rule

open Text Block

variable {name : Text}

/-- The pattern of a class is read as an expression that stands for a dot, the name of the class
character for character, blanks, and a block with one or two braces open up to its end. No two texts
of it start at one place, and whichever way a search from left to right goes about it, it finds the
spans of the fast strategy. -/
theorem spans_fast_denoted (compiles : Pattern.compiles name = true) :
    ∃ expression, Pattern.read? (Pattern.rule name).text = some expression ∧
      (∀ t, expression.Denotes t ↔ ∃ blanks block, t = '.' :: name ++ blanks ++ block ∧
        (∀ c ∈ blanks, isBlank c) ∧ OneLevel block) ∧
      (∀ css start stop stop', Hit expression.Denotes css start stop →
        Hit expression.Denotes css start stop' → stop = stop') ∧
      ∀ css, ∃ found, spans .fast name css = .ok found ∧
        ∀ list, Leftmost (Hit expression.Denotes css) 0 list ↔ list = found := by
  obtain ⟨expression, reads, same⟩ := Pattern.exists_read?_text (Pattern.writable_rule name)
  have denoted : expression.Denotes = IsRule .fast name := by
    funext t
    exact propext ((same t).trans Pattern.denotes_rule_iff)
  have supported : supports .fast name = true := compiles
  refine ⟨expression, reads, ?_⟩
  rw [denoted]
  refine ⟨fun t => ?_, fun css => (recognises_length? .fast name).single, fun css =>
    ⟨_, spans_of_supports supported css, leftmost_cut .fast name css⟩⟩
  simp only [← isBlock_two_iff_oneLevel]
  constructor
  · rintro ⟨_, block, rfl, ⟨blanks, rfl, blank⟩, isBlock⟩
    exact ⟨blanks, block, rfl, blank, isBlock⟩
  · rintro ⟨blanks, block, rfl, blank, isBlock⟩
    exact ⟨_, block, rfl, ⟨blanks, rfl, blank⟩, isBlock⟩

/-- In the name `a|.*` nothing has a meaning of its own. -/
theorem spans_fast_denoted_alternation :
    let name := "a|.*".toList
    let css := ".a { } .a|.* {b{c}} .a|.b{}".toList
    Pattern.compiles name = true ∧
      ∃ expression, Pattern.read? (Pattern.rule name).text = some expression ∧
        Leftmost (Hit expression.Denotes css) 0 [⟨7, 19⟩] := by
  intro name css
  have compiles : Pattern.compiles name = true := by decide
  obtain ⟨expression, reads, -, -, searches⟩ := spans_fast_denoted compiles
  obtain ⟨found, searched, leftmost⟩ := searches css
  have known : spans .fast name css = .ok [⟨7, 19⟩] := congrArg Except.ok (by decide +kernel)
  obtain rfl := Except.ok.inj (searched.symm.trans known)
  exact ⟨compiles, expression, reads, (leftmost _).mpr rfl⟩

end Rule

end RulePruner
