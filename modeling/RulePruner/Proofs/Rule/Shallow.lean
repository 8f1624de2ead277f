import RulePruner.Proofs.Rule.Without

/-!
# Shallow stylesheets

A stylesheet is shallow if no three braces in it are ever open one inside the other. In a shallow
stylesheet the bound on the nesting of a block plays no part: both strategies find the same rules
(`Rule.isRule_fast_iff`) and leave the same text (`Rule.without_fast`), which is shallow again
(`Rule.Shallow.without`).
-/

namespace RulePruner

namespace Block

open Text

/-- Whether a text that is read with `level` braces open gets to three open braces before it closes
the last of them. -/
def Climbs (level : Int) (t : Text) : Prop :=
  ∃ p, p <+: t ∧ (∀ q, q <+: p → 0 < level + depth q) ∧ 3 ≤ level + depth p

instance (level : Int) (t : Text) : Decidable (Climbs level t) :=
  decidable_of_iff
    (∃ p ∈ t.inits, (∀ q ∈ p.inits, 0 < level + depth q) ∧ 3 ≤ level + depth p)
    (by simp only [Climbs, List.mem_inits])

theorem climbs_of_le {level : Int} (high : 3 ≤ level) (t : Text) : Climbs level t := by
  refine ⟨[], List.nil_prefix, ?_, by simpa using high⟩
  intro q front
  rw [List.prefix_nil.mp front, depth_nil]
  omega

theorem climbs_cons_iff {level : Int} {c : Char} {t : Text} (positive : 0 < level)
    (low : level < 3) :
    Climbs level (c :: t) ↔ 0 < level + weight c ∧ Climbs (level + weight c) t := by
  constructor
  · intro climbs
    rcases climbs with ⟨p, front, above, reached⟩
    rcases List.prefix_cons_iff.mp front with rfl | ⟨p, rfl, inside⟩
    · rw [depth_nil] at reached
      omega
    · rw [depth_cons, ← Int.add_assoc] at reached
      have above := (forall_prefix_cons.mp above).2
      simp only [depth_cons, ← Int.add_assoc] at above
      exact ⟨by simpa using above [] List.nil_prefix, p, inside, above, reached⟩
  · intro later
    rcases later with ⟨-, p, inside, above, reached⟩
    refine ⟨c :: p, List.cons_prefix_cons.mpr ⟨rfl, inside⟩, ?_, ?_⟩
    · refine forall_prefix_cons.mpr ⟨by simpa using positive, ?_⟩
      simpa only [depth_cons, ← Int.add_assoc] using above
    · rwa [depth_cons, ← Int.add_assoc]

/-- A climb may start with a text that closes what it opens. -/
theorem Climbs.of_wellNested {level : Int} {w t : Text} (positive : 0 < level)
    (nested : WellNested w) (climbs : Climbs level t) : Climbs level (w ++ t) := by
  obtain ⟨p, front, above, reached⟩ := climbs
  have same (q : Text) : level + depth (w ++ q) = level + depth q := by
    rw [depth_append, nested.balanced, Int.zero_add]
  refine ⟨w ++ p, (List.prefix_append_right_inj w).mpr front, ?_, by rwa [same]⟩
  intro q within
  rcases prefix_append_cases within with early | ⟨r, late, rfl⟩
  · have := nested.sane q early
    omega
  · rw [same]
    exact above r late

/-- Where a text does not climb, a body that closes it stays below the bound. -/
theorem closes_two_iff {level : Int} {body rest : Text} (flat : ¬ Climbs level (body ++ rest)) :
    Closes (some 2) level body ↔ Closes none level body := by
  constructor
  · intro closes
    rcases closes with ⟨closed, inside, -⟩
    exact ⟨closed, inside, by simp⟩
  · intro closes
    rcases closes with ⟨closed, inside, -⟩
    refine ⟨closed, inside, ?_⟩
    rintro limit given p front
    obtain rfl : 2 = limit := by simpa using given
    by_contra high
    -- The front `p` is a climb, for all of its own fronts stand inside the body.
    refine flat ⟨p, front.trans (List.prefix_append body rest), ?_, by omega⟩
    intro q within
    apply inside q (within.trans front)
    rintro rfl
    obtain rfl := within.eq_of_length (Nat.le_antisymm within.length_le front.length_le)
    omega

end Block

namespace Rule

open Text Block

/-- A stylesheet in which no opening brace starts a climb to three open braces. -/
def Shallow (css : Text) : Prop :=
  ∀ before after, css = before ++ '{' :: after → ¬ Climbs 1 after

instance (css : Text) : Decidable (Shallow css) :=
  decidable_of_iff (∀ t ∈ css.tails, t.head? = some '{' → ¬ Climbs 1 t.tail) <| by
    constructor
    · intro flat before after split
      exact flat ('{' :: after) ((List.mem_tails _ _).mpr ⟨before, split.symm⟩) rfl
    · intro shallow t member opens
      obtain ⟨before, split⟩ := (List.mem_tails _ _).mp member
      cases t with
      | nil => simp at opens
      | cons c t =>
        obtain rfl : c = '{' := by simpa using opens
        exact shallow before t split.symm

theorem shallow_cons_iff {c : Char} {t : Text} :
    Shallow (c :: t) ↔ (c = '{' → ¬ Climbs 1 t) ∧ Shallow t := by
  constructor
  · intro shallow
    constructor
    · rintro rfl
      exact shallow [] t rfl
    · intro before after split
      exact shallow (c :: before) after (by rw [split, List.cons_append])
  · rintro ⟨here, later⟩ before after split
    cases before with
    | nil =>
      obtain ⟨rfl, rfl⟩ := List.cons_eq_cons.mp split
      exact here rfl
    | cons d before =>
      obtain ⟨-, rfl⟩ := List.cons_eq_cons.mp split
      exact later before after rfl

theorem Shallow.of_append {a b : Text} (shallow : Shallow (a ++ b)) : Shallow b := by
  intro before after split
  exact shallow (a ++ before) after (by rw [split, List.append_assoc])

variable {strategy : Strategy} {names : List Text} {name : Text}

/-- Cutting rules out of a text adds no climb to it. -/
theorem climbs_of_without (free : ∀ name ∈ names, BraceFree name) {level : Int} {t : Text} :
    0 < level → Climbs level (without strategy names t) → Climbs level t := by
  apply without_induction (motive := fun t left => ∀ {level : Int}, 0 < level →
    Climbs level left → Climbs level t)
  · intro level _ climbs
    exact climbs
  · intro c t _ ih level positive climbs
    by_cases high : 3 ≤ level
    · exact climbs_of_le high _
    · rw [climbs_cons_iff positive (by omega)] at climbs ⊢
      exact ⟨climbs.1, ih climbs.1 climbs.2⟩
  · intro name member rule rest isRule ih level positive climbs
    exact (ih positive climbs).of_wellNested positive (isRule.wellNested (free name member))

/-- Cutting rules out of a shallow stylesheet leaves it shallow. -/
theorem Shallow.without (free : ∀ name ∈ names, BraceFree name) {css : Text} :
    Shallow css → Shallow (without strategy names css) := by
  apply without_induction (motive := fun t left => Shallow t → Shallow left)
  · intro shallow
    exact shallow
  · intro c t _ ih shallow
    rw [shallow_cons_iff] at shallow ⊢
    refine ⟨fun opens climbs => ?_, ih shallow.2⟩
    exact shallow.1 opens (climbs_of_without free (by decide) climbs)
  · intro name _ rule rest _ ih shallow
    exact ih shallow.of_append

/-- At a place of a shallow stylesheet both strategies see the same rule. -/
theorem isRule_fast_iff {rule rest : Text} (shallow : Shallow (rule ++ rest)) :
    IsRule .fast name rule ↔ IsRule .balanced name rule := by
  constructor
  · intro isRule
    exact isRule.balanced
  · intro isRule
    obtain ⟨head, body, rfl, isHead, closes⟩ := isRule_iff.mp isRule
    have flat : ¬ Climbs 1 (body ++ rest) := shallow head (body ++ rest) (by simp)
    exact isRule_iff.mpr ⟨head, body, rfl, isHead, (closes_two_iff flat).mpr closes⟩

theorem length?_fast {t : Text} (shallow : Shallow t) :
    length? .fast name t = length? .balanced name t := by
  apply Option.ext
  intro n
  rw [length?_eq_some_iff, length?_eq_some_iff]
  constructor
  · intro found
    rcases found with ⟨rule, rest, rfl, size, isRule⟩
    exact ⟨rule, rest, rfl, size, isRule.balanced⟩
  · intro found
    rcases found with ⟨rule, rest, rfl, size, isRule⟩
    exact ⟨rule, rest, rfl, size, (isRule_fast_iff shallow).mpr isRule⟩

/-- Both strategies leave the same text of a shallow stylesheet. -/
theorem without_fast (free : ∀ name ∈ names, BraceFree name) {css : Text} :
    Shallow css → Rule.without .fast names css = Rule.without .balanced names css := by
  apply without_induction (motive := fun t left => Shallow t →
    Rule.without .fast names t = left)
  · intro _
    exact without_nil
  · intro c t missing ih shallow
    rw [without_cons, ih (shallow_cons_iff.mp shallow).2]
    intro name member
    rw [length?_fast shallow, missing name member]
  · intro name member rule rest isRule ih shallow
    rw [((isRule_fast_iff shallow).mpr isRule).without_append member free, ih shallow.of_append]

/-- Both strategies find a class in a shallow stylesheet, or none does. -/
theorem occurs_fast_iff {css : Text} (shallow : Shallow css) :
    Occurs .fast name css ↔ Occurs .balanced name css := by
  constructor
  · intro occurs
    rcases occurs with ⟨before, rule, after, split, isRule⟩
    exact ⟨before, rule, after, split, isRule.balanced⟩
  · intro occurs
    rcases occurs with ⟨before, rule, after, rfl, isRule⟩
    rw [List.append_assoc] at shallow
    exact ⟨before, rule, after, rfl, (isRule_fast_iff shallow.of_append).mpr isRule⟩

/-- One class after the other, both strategies leave the same text of a shallow stylesheet. -/
theorem withoutInTurn_fast (free : ∀ name ∈ names, BraceFree name) {css : Text}
    (shallow : Shallow css) :
    withoutInTurn .fast names css = withoutInTurn .balanced names css ∧
      Shallow (withoutInTurn .balanced names css) := by
  induction names generalizing css with
  | nil => exact ⟨rfl, shallow⟩
  | cons name names ih =>
    obtain ⟨freeFirst, freeLater⟩ := List.forall_mem_cons.mp free
    have alone : ∀ other ∈ [name], BraceFree other := by simpa using freeFirst
    rw [withoutInTurn, withoutInTurn, without_fast alone shallow]
    exact ih freeLater (shallow.without alone)

end Rule

end RulePruner
