import Mathlib.Data.List.Basic
import RulePruner.Rule.Pattern

/-!
# The language of an expression

What `Pattern.Denotes` says of each form of expression: a repetition stands for the texts that come
apart into texts of what is repeated (`Pattern.denotes_many_iff`), and where what is repeated is one
character, for the texts of such characters (`Pattern.denotes_many_iff_forall`). `Pattern.sequence`
puts a list of expressions one after the other.
-/

namespace RulePruner.Pattern

variable {first second item : Pattern} {s t : Text}

@[simp] theorem denotes_literal_iff : Denotes (literal s) t ↔ t = s := by
  constructor
  · intro denoted
    cases denoted
    rfl
  · rintro rfl
    exact .literal _

theorem denotes_blank_iff : Denotes blank t ↔ ∃ c, t = [c] ∧ Text.isBlank c := by
  constructor
  · intro denoted
    cases denoted with
    | blank isBlank => exact ⟨_, rfl, isBlank⟩
  · rintro ⟨c, rfl, isBlank⟩
    exact .blank isBlank

theorem denotes_noneOf_iff {excluded : Text} :
    Denotes (noneOf excluded) t ↔ ∃ c, t = [c] ∧ c ∉ excluded := by
  constructor
  · intro denoted
    cases denoted with
    | noneOf fresh => exact ⟨_, rfl, fresh⟩
  · rintro ⟨c, rfl, fresh⟩
    exact .noneOf fresh

theorem denotes_followedBy_iff :
    Denotes (followedBy first second) t ↔
      ∃ s s', t = s ++ s' ∧ Denotes first s ∧ Denotes second s' := by
  constructor
  · intro denoted
    cases denoted with
    | followedBy front back => exact ⟨_, _, rfl, front, back⟩
  · rintro ⟨s, s', rfl, front, back⟩
    exact .followedBy front back

/-- A repetition stands for the texts that come apart into texts of what is repeated. -/
theorem denotes_many_iff :
    Denotes (many item) t ↔
      ∃ parts : List Text, t = parts.flatten ∧ ∀ s ∈ parts, Denotes item s := by
  constructor
  · -- The induction is on a text of any expression; only the two forms of a repetition apply.
    generalize repeated : many item = p
    intro denoted
    induction denoted with
    | none => exact ⟨[], rfl, by simp⟩
    | @more item' s t front _ _ ih =>
      obtain rfl := Pattern.many.inj repeated
      obtain ⟨parts, rfl, all⟩ := ih repeated
      exact ⟨s :: parts, rfl, List.forall_mem_cons.mpr ⟨front, all⟩⟩
    | _ => cases repeated
  · rintro ⟨parts, rfl, all⟩
    induction parts with
    | nil => exact .none
    | cons s parts ih =>
      obtain ⟨front, all⟩ := List.forall_mem_cons.mp all
      exact .more front (ih all)

/-- A law of the empty text that one more text of what is repeated keeps holds of every text of the
repetition. -/
theorem many_induction {motive : Text → Prop} (none : motive [])
    (more : ∀ s t, Denotes item s → motive t → motive (s ++ t)) (denoted : Denotes (many item) t) :
    motive t := by
  obtain ⟨parts, rfl, all⟩ := denotes_many_iff.mp denoted
  clear denoted
  induction parts with
  | nil => exact none
  | cons s parts ih =>
    obtain ⟨front, all⟩ := List.forall_mem_cons.mp all
    exact more s _ front (ih all)

/-- A repetition of one character stands for the texts of such characters. -/
theorem denotes_many_iff_forall {Accepted : Char → Prop}
    (single : ∀ s, Denotes item s ↔ ∃ c, s = [c] ∧ Accepted c) :
    Denotes (many item) t ↔ ∀ c ∈ t, Accepted c := by
  rw [denotes_many_iff]
  constructor
  · rintro ⟨parts, rfl, all⟩ c member
    obtain ⟨s, inside, member⟩ := List.mem_flatten.mp member
    obtain ⟨d, rfl, accepted⟩ := (single s).mp (all s inside)
    rwa [List.mem_singleton.mp member]
  · intro all
    refine ⟨t.map fun c => [c], ?_, fun s member => ?_⟩
    · rw [← List.flatMap_def, List.flatMap_singleton']
    · obtain ⟨c, inside, rfl⟩ := List.mem_map.mp member
      exact (single [c]).mpr ⟨c, rfl, all c inside⟩

/-- Whether two expressions stand for the same texts. -/
def Equivalent (p q : Pattern) : Prop := ∀ t, Denotes p t ↔ Denotes q t

theorem Equivalent.many {other : Pattern} (same : Equivalent item other) :
    Equivalent (many item) (many other) := by
  intro t
  simp only [denotes_many_iff, same _]

/-- The expressions of a list one after the other, where the list starts with the last of them. -/
def sequence : List Pattern → Pattern
  | [] => literal []
  | last :: earlier => followedBy (sequence earlier) last

theorem denotes_sequence_cons_iff {earlier : List Pattern} :
    Denotes (sequence (item :: earlier)) t ↔
      ∃ s s', t = s ++ s' ∧ Denotes (sequence earlier) s ∧ Denotes item s' :=
  denotes_followedBy_iff

@[simp] theorem denotes_sequence_singleton_iff : Denotes (sequence [item]) t ↔ Denotes item t := by
  rw [denotes_sequence_cons_iff]
  simp [sequence]

theorem denotes_sequence_append_iff {later earlier : List Pattern} :
    Denotes (sequence (later ++ earlier)) t ↔
      ∃ s s', t = s ++ s' ∧ Denotes (sequence earlier) s ∧ Denotes (sequence later) s' := by
  induction later generalizing t with
  | nil => simp [sequence]
  | cons item later ih =>
    simp only [List.cons_append, denotes_sequence_cons_iff, ih]
    constructor
    · rintro ⟨_, s₃, rfl, ⟨s₁, s₂, rfl, first, second⟩, third⟩
      exact ⟨s₁, s₂ ++ s₃, List.append_assoc _ _ _, first, s₂, s₃, rfl, second, third⟩
    · rintro ⟨s₁, _, rfl, first, s₂, s₃, rfl, second, third⟩
      exact ⟨s₁ ++ s₂, s₃, (List.append_assoc _ _ _).symm, ⟨s₁, s₂, rfl, first, second⟩, third⟩

end RulePruner.Pattern
