import RulePruner.Proofs.Cutting
import RulePruner.Proofs.Rule.Shape

/-!
# Stylesheets without the rules of some classes

`Rule.without` cuts the rules of several classes out of a stylesheet in one pass, and
`Rule.withoutInTurn` cuts them out one class after the other. The one in one pass is read off
one character or one rule at a time, it works on a closed stretch of text apart from what follows
that stretch (`Rule.without_append_of_sealed`), and it neither closes nor opens a block around the
rules that it cuts (`Rule.ends_without_iff`).
-/

namespace RulePruner

namespace Block

open Text

/-- Whether a text that is read with `level` braces open closes the last of them somewhere. -/
def Ends (level : Int) (t : Text) : Prop :=
  ∃ body rest, t = body ++ rest ∧ Closes none level body

theorem ends_cons_iff {level : Int} {c : Char} {t : Text} (positive : 0 < level) :
    Ends level (c :: t) ↔ level + weight c = 0 ∨ Ends (level + weight c) t := by
  have counted (t : Text) (level : Int) (passed : Nat) : Ends level t ↔
      ∃ n body rest, t = body ++ rest ∧ n = passed + body.length ∧ Closes none level body := by
    constructor
    · intro ends
      rcases ends with ⟨body, rest, split, closes⟩
      exact ⟨_, body, rest, split, rfl, closes⟩
    · intro found
      rcases found with ⟨-, body, rest, split, -, closes⟩
      exact ⟨body, rest, split, closes⟩
  rw [counted _ level 0]
  have roomy : ∀ limit ∈ (none : Option Nat), level ≤ limit := by simp
  simp only [exists_closes_cons_iff positive roomy]
  by_cases last : level + weight c = 0
  · simp [last]
  · simp only [last, false_or]
    exact (counted t _ 1).symm

/-- What is well nested before the end of a body does not count. -/
theorem closes_append_iff {level : Int} {w body : Text} (positive : 0 < level)
    (nested : WellNested w) : Closes none level (w ++ body) ↔ Closes none level body := by
  have same (p : Text) : level + depth (w ++ p) = level + depth p := by
    rw [depth_append, nested.balanced, Int.zero_add]
  constructor
  · intro closes
    rcases closes with ⟨closed, inside, -⟩
    refine ⟨by rwa [same] at closed, ?_, by simp⟩
    intro p front proper
    rw [← same]
    exact inside (w ++ p) ((List.prefix_append_right_inj w).mpr front) (by simpa using proper)
  · intro closes
    rcases closes with ⟨closed, inside, -⟩
    refine ⟨by rwa [same], ?_, by simp⟩
    intro p front proper
    rcases prefix_append_cases front with early | ⟨q, late, rfl⟩
    · have := nested.sane p early
      omega
    · rw [same]
      exact inside q late (by simpa using proper)

theorem ends_append_iff {level : Int} {w t : Text} (positive : 0 < level)
    (nested : WellNested w) : Ends level (w ++ t) ↔ Ends level t := by
  constructor
  · intro ends
    rcases ends with ⟨body, rest, split, closes⟩
    rcases List.prefix_or_prefix_of_prefix ⟨rest, split.symm⟩ (List.prefix_append w t) with
      early | ⟨later, rfl⟩
    · have := nested.sane body early
      have := closes.closed
      omega
    · rw [List.append_assoc] at split
      exact ⟨later, rest, List.append_cancel_left split,
        (closes_append_iff positive nested).mp closes⟩
  · intro ends
    rcases ends with ⟨body, rest, rfl, closes⟩
    exact ⟨w ++ body, rest, by simp, (closes_append_iff positive nested).mpr closes⟩

end Block

namespace Rule

open Text Block

/-- The number of characters of the rule that a text starts with, of whichever class of several. -/
def firstLength? (strategy : Strategy) (names : List Text) (t : Text) : Option Nat :=
  names.findSome? fun name => length? strategy name t

/-- A stylesheet without the rules of several classes, which are cut out in one pass. -/
def without (strategy : Strategy) (names : List Text) (css : Text) : Text :=
  (Cutting.of (firstLength? strategy names) css).remaining

/-- A stylesheet without the rules of several classes, which are cut out one class after the other.
-/
def withoutInTurn (strategy : Strategy) : List Text → Text → Text
  | [], css => css
  | name :: names, css => withoutInTurn strategy names (without strategy [name] css)

variable {strategy : Strategy} {names : List Text}

theorem firstLength?_eq_none_iff {t : Text} :
    firstLength? strategy names t = none ↔ ∀ name ∈ names, length? strategy name t = none :=
  List.findSome?_eq_none_iff

theorem exists_of_firstLength? {t : Text} {n : Nat}
    (found : firstLength? strategy names t = some n) :
    ∃ name ∈ names, ∃ rule rest, t = rule ++ rest ∧ n = rule.length ∧
      IsRule strategy name rule := by
  obtain ⟨name, member, here⟩ := List.exists_of_findSome?_eq_some found
  exact ⟨name, member, length?_eq_some_iff.mp here⟩

theorem measures_firstLength? (strategy : Strategy) (names : List Text) :
    Cutting.Measures (firstLength? strategy names) := by
  intro t n found
  obtain ⟨name, -, rule, rest, rfl, rfl, isRule⟩ := exists_of_firstLength? found
  have := isRule.length_ge
  simp only [List.length_append]
  omega

/-- Rules of all the classes have one length at one place. -/
theorem IsRule.firstLength?_append {name rule : Text} (isRule : IsRule strategy name rule)
    (member : name ∈ names) (free : ∀ name ∈ names, BraceFree name) (rest : Text) :
    firstLength? strategy names (rule ++ rest) = some rule.length := by
  cases found : firstLength? strategy names (rule ++ rest) with
  | none =>
    have missing := firstLength?_eq_none_iff.mp found name member
    rw [isRule.length?_append rest] at missing
    simp at missing
  | some n =>
    obtain ⟨name', member', rule', rest', same, rfl, isRule'⟩ := exists_of_firstLength? found
    rw [isRule'.unique isRule (free name' member') (free name member) same.symm]

theorem firstLength?_singleton (name : Text) :
    firstLength? strategy [name] = length? strategy name := by
  funext t
  unfold firstLength?
  cases found : length? strategy name t <;> simp [found]

theorem cut_cons_of_none {name : Text} {c : Char} {t : Text}
    (missing : length? strategy name (c :: t) = none) :
    cut strategy name (c :: t) = Cutting.keep c (cut strategy name t) :=
  Cutting.of_cons_of_none missing

theorem IsRule.cut_append {name rule : Text} (isRule : IsRule strategy name rule) (rest : Text) :
    cut strategy name (rule ++ rest) = Cutting.cut rule (cut strategy name rest) :=
  Cutting.of_append (measures_length? strategy name) (isRule.length?_append rest)

/-- Cutting out the rules of one class leaves the stylesheet without them. -/
theorem remaining_cut (name css : Text) :
    (cut strategy name css).remaining = without strategy [name] css := by
  rw [without, firstLength?_singleton, cut]

@[simp] theorem without_nil : without strategy names [] = [] := by
  simp [without, Cutting.remaining]

theorem without_cons {c : Char} {t : Text}
    (missing : ∀ name ∈ names, length? strategy name (c :: t) = none) :
    without strategy names (c :: t) = c :: without strategy names t :=
  Cutting.remaining_of_cons (firstLength?_eq_none_iff.mpr missing)

theorem IsRule.without_append {name rule : Text} (isRule : IsRule strategy name rule)
    (member : name ∈ names) (free : ∀ name ∈ names, BraceFree name) (rest : Text) :
    without strategy names (rule ++ rest) = without strategy names rest :=
  Cutting.remaining_of_append (measures_firstLength? strategy names)
    (isRule.firstLength?_append member free rest)

/-- A rule starts with a dot. -/
theorem length?_eq_none_of_ne_dot {name : Text} {c : Char} {t : Text} (other : c ≠ '.') :
    length? strategy name (c :: t) = none := by
  simp [length?, other]

/-- What `without` leaves is told one character or one rule at a time. -/
theorem without_induction {motive : Text → Text → Prop} (nil : motive [] [])
    (keep : ∀ c t, (∀ name ∈ names, length? strategy name (c :: t) = none) →
      motive t (without strategy names t) → motive (c :: t) (c :: without strategy names t))
    (cut : ∀ name ∈ names, ∀ rule rest, IsRule strategy name rule →
      motive rest (without strategy names rest) →
      motive (rule ++ rest) (without strategy names rest)) (t : Text) :
    motive t (without strategy names t) := by
  refine Cutting.of_split_induction (measures_firstLength? strategy names)
    (motive := fun t cutting => motive t cutting.remaining) nil ?_ ?_ t
  · intro c t missing later
    rw [Cutting.remaining_keep]
    exact keep c t (firstLength?_eq_none_iff.mp missing) later
  · intro block rest found later
    obtain ⟨name, member, rule, rest', same, size, isRule⟩ := exists_of_firstLength? found
    obtain ⟨rfl, rfl⟩ := List.append_inj same size
    rw [Cutting.remaining_cut]
    exact cut name member block rest isRule later

theorem without_no_names (css : Text) : without strategy [] css = css := by
  induction css with
  | nil => exact without_nil
  | cons c t ih => rw [without_cons (by simp), ih]

theorem without_sublist (css : Text) : (without strategy names css).Sublist css := by
  refine without_induction (motive := fun t left => left.Sublist t) (List.Sublist.refl []) ?_ ?_ css
  · intro c t _ later
    exact later.cons_cons c
  · intro name _ rule rest _ later
    exact later.trans (List.sublist_append_right rule rest)

theorem withoutInTurn_concat (names : List Text) (name css : Text) :
    withoutInTurn strategy (names ++ [name]) css =
      without strategy [name] (withoutInTurn strategy names css) := by
  induction names generalizing css with
  | nil => rfl
  | cons first names ih => exact ih _

theorem withoutInTurn_sublist (names : List Text) (css : Text) :
    (withoutInTurn strategy names css).Sublist css := by
  induction names generalizing css with
  | nil => exact List.Sublist.refl css
  | cons name names ih => exact (ih _).trans (without_sublist css)

/-- A text in which whatever starts with a dot is closed before the end. -/
def Sealed (u : Text) : Prop :=
  ∀ front v, u = front ++ '.' :: v → '}' ∈ v ∧ depth v ≤ 0

theorem Sealed.of_suffix {front u : Text} (closed : Sealed (front ++ u)) : Sealed u := by
  intro front' v split
  exact closed (front ++ front') v (by rw [split, List.append_assoc])

theorem IsRule.sealed {other : Strategy} {name rule : Text} (isRule : IsRule other name rule)
    (free : BraceFree name) : Sealed rule := by
  intro front v split
  constructor
  · obtain ⟨start, ends⟩ := isRule.ends
    rw [split] at ends
    rcases List.eq_nil_or_concat v with rfl | ⟨w, c, rfl⟩
    · exact absurd (List.append_inj_right' ends rfl) (by decide)
    · rw [List.concat_eq_append, ← List.cons_append, ← List.append_assoc] at ends
      obtain ⟨rfl⟩ := List.cons_eq_cons.mp (List.append_inj_right' ends rfl)
      simp
  · have := (split ▸ isRule.wellNested free).depth_suffix_nonpos
    rwa [depth_cons, weight_other (by decide) (by decide), Int.zero_add] at this

/-- A rule that starts in a sealed text is a rule of that text alone. -/
theorem Sealed.length?_append {name u : Text} {c : Char} (closed : Sealed (c :: u))
    (free : BraceFree name) (rest : Text) (missing : length? strategy name (c :: u) = none) :
    length? strategy name (c :: u ++ rest) = none := by
  rw [length?_eq_none_iff] at missing ⊢
  intro rule after split isRule
  obtain ⟨tail, rfl⟩ := isRule.eq_cons
  obtain ⟨rfl, -⟩ := List.cons_eq_cons.mp split
  obtain ⟨closes, level⟩ := closed [] u rfl
  obtain ⟨behind, same⟩ := isRule.within free (List.mem_cons_of_mem _ closes)
    (by rwa [depth_cons, weight_other (by decide) (by decide), Int.zero_add]) split
  exact missing _ behind same.symm isRule

/-- The rules are cut out of a sealed text apart from what follows it. -/
theorem without_append_of_sealed (free : ∀ name ∈ names, BraceFree name) {u : Text} (rest : Text) :
    Sealed u → without strategy names (u ++ rest) =
      without strategy names u ++ without strategy names rest := by
  apply without_induction (motive := fun u left => Sealed u →
    without strategy names (u ++ rest) = left ++ without strategy names rest)
  · intro _
    rfl
  · intro c u missing ih closed
    have later := ih (Sealed.of_suffix (show Sealed ([c] ++ u) from closed))
    rw [List.cons_append, without_cons, later, List.cons_append]
    intro name member
    exact closed.length?_append (free name member) rest (missing name member)
  · intro name member rule u isRule ih closed
    rw [List.append_assoc, isRule.without_append member free, ih closed.of_suffix]

/-- Cutting rules out of a text leaves it open or closed as it is. -/
theorem ends_without_iff (free : ∀ name ∈ names, BraceFree name) {level : Int} {t : Text} :
    0 < level → (Ends level (without strategy names t) ↔ Ends level t) := by
  apply without_induction (motive := fun t left => ∀ {level : Int}, 0 < level →
    (Ends level left ↔ Ends level t))
  · intro level _
    exact Iff.rfl
  · intro c t _ ih level positive
    rw [ends_cons_iff positive, ends_cons_iff positive]
    by_cases last : level + weight c = 0
    · simp [last]
    · have := neg_one_le_weight c
      rw [ih (by omega)]
  · intro name member rule rest isRule ih level positive
    rw [ih positive, ends_append_iff positive (isRule.wellNested (free name member))]

/-- Cutting rules out of a body that closes a block leaves one. -/
theorem closes_without (free : ∀ name ∈ names, BraceFree name) {level : Int} {t : Text} :
    0 < level → Closes none level t → Closes none level (without strategy names t) := by
  apply without_induction (motive := fun t left => ∀ {level : Int}, 0 < level →
    Closes none level t → Closes none level left)
  · intro level _ closes
    exact closes
  · intro c t _ ih level positive
    rw [closes_cons_iff positive (by simp), closes_cons_iff positive (by simp)]
    split
    · rintro rfl
      exact without_nil
    · rename_i more
      have := neg_one_le_weight c
      exact ih (by omega)
  · intro name member rule rest isRule ih level positive closes
    exact ih positive
      ((closes_append_iff positive (isRule.wellNested (free name member))).mp closes)

end Rule

end RulePruner
