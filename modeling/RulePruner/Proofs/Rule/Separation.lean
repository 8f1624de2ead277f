import RulePruner.Proofs.Rule.Boundary
import RulePruner.Proofs.Rule.Without

/-!
# Separated classes

A stylesheet is separated for some classes if every head of a rule of theirs stands where a rule can
start. The main statement is `Rule.withoutInTurn_eq`: the rules of plain classes are then cut out
one class after the other just as they are in one pass, because no cut puts a head together
(`Rule.head_of_without`) and every cut leaves the stylesheet separated (`Rule.Separated.without`).
-/

namespace RulePruner.Rule

open Text Block

/-- Behind `before`, every head of a rule of the classes in `css` stands where a rule can start. -/
def Separated (names : List Text) (before css : Text) : Prop :=
  ∀ name ∈ names, ∀ front head rest, css = front ++ head ++ '{' :: rest → IsHead name head →
    AtRuleStart (before ++ front)

variable {names : List Text} {name before t : Text}

/-- Whether a text starts with the head of a rule of class `name` and the brace behind it. -/
def opens (name t : Text) : Bool :=
  ('.' :: name).isPrefixOf t &&
    ((t.drop (name.length + 1)).dropWhile isBlank).head? = some '{'

theorem opens_iff :
    opens name t = true ↔ ∃ head rest, t = head ++ '{' :: rest ∧ IsHead name head := by
  simp only [opens, Bool.and_eq_true, List.isPrefixOf_iff_prefix, decide_eq_true_eq]
  constructor
  · intro starts
    rcases starts with ⟨⟨tail, rfl⟩, brace⟩
    have behind : ('.' :: name ++ tail).drop (name.length + 1) = tail := by simp
    rw [behind] at brace
    obtain ⟨rest, shown⟩ : ∃ rest, tail.dropWhile isBlank = '{' :: rest :=
      ⟨_, (List.cons_head?_tail brace).symm⟩
    refine ⟨'.' :: name ++ tail.takeWhile isBlank, rest, ?_, _, rfl, ?_⟩
    · rw [List.append_assoc, ← shown, List.takeWhile_append_dropWhile]
    · intro c
      exact List.mem_takeWhile_imp
  · intro starts
    rcases starts with ⟨head, rest, rfl, blanks, rfl, blank⟩
    have behind : ('.' :: name ++ blanks ++ '{' :: rest).drop (name.length + 1) =
        blanks ++ '{' :: rest := by simp
    refine ⟨⟨blanks ++ '{' :: rest, by simp⟩, ?_⟩
    rw [behind, List.dropWhile_append_of_pos blank, List.dropWhile_cons_of_neg (by decide)]
    rfl

instance (names : List Text) (before css : Text) : Decidable (Separated names before css) :=
  decidable_of_iff
    (∀ name ∈ names, ∀ place ∈ List.range (css.length + 1),
      opens name (css.drop place) = true → AtRuleStart (before ++ css.take place)) <| by
    constructor
    · intro each name member front head rest split isHead
      have inside : front.length < css.length + 1 := by
        rw [split, List.append_assoc, List.length_append]
        omega
      have start := each name member front.length (List.mem_range.mpr inside)
      rw [split, List.append_assoc, List.drop_left, List.take_left] at start
      exact start (opens_iff.mpr ⟨head, rest, rfl, isHead⟩)
    · intro separated name member place _ starts
      obtain ⟨head, rest, split, isHead⟩ := opens_iff.mp starts
      refine separated name member (css.take place) head rest ?_ isHead
      rw [List.append_assoc, ← split, List.take_append_drop]

theorem Separated.of_append {front : Text} (separated : Separated names before (front ++ t)) :
    Separated names (before ++ front) t := by
  intro name member front' head rest split isHead
  rw [List.append_assoc]
  exact separated name member (front ++ front') head rest (by simp [split]) isHead

theorem Separated.of_cons {c : Char} (separated : Separated names before (c :: t)) :
    Separated names (before ++ [c]) t :=
  Separated.of_append (show Separated names before ([c] ++ t) from separated)

theorem Separated.of_front {rest : Text} (separated : Separated names before (t ++ rest)) :
    Separated names before t := by
  intro name member front head tail split isHead
  exact separated name member front head (tail ++ rest) (by simp [split]) isHead

theorem Separated.of_subset {fewer : List Text} (separated : Separated names before t)
    (subset : fewer ⊆ names) : Separated fewer before t :=
  fun name member => separated name (subset member)

/-- A rule of a separated class stands where a rule can start. -/
theorem Separated.atRuleStart {rule rest : Text} {strategy : Strategy}
    (separated : Separated names before (rule ++ rest)) (member : name ∈ names)
    (isRule : IsRule strategy name rule) : AtRuleStart before := by
  obtain ⟨head, body, rfl, isHead, -⟩ := isRule_iff.mp isRule
  simpa using separated name member [] head (body ++ rest) (by simp) isHead

theorem Separated.length?_eq_none (separated : Separated names before t) (member : name ∈ names)
    (inside : ¬ AtRuleStart before) : length? .balanced name t = none := by
  rw [length?_eq_none_iff]
  rintro rule rest rfl isRule
  exact inside (separated.atRuleStart member isRule)

/-- Where no rule can start, nothing is cut. -/
theorem Separated.without_append {h : Text} (separated : Separated names before (h ++ t))
    (inside : ∀ p, p <+: h → p ≠ h → ¬ AtRuleStart (before ++ p)) :
    without .balanced names (h ++ t) = h ++ without .balanced names t := by
  induction h generalizing before with
  | nil => rfl
  | cons c h ih =>
    have here : ¬ AtRuleStart before := by
      simpa using inside [] List.nil_prefix (by simp)
    have missing : ∀ name ∈ names, length? .balanced name (c :: (h ++ t)) = none :=
      fun name member => separated.length?_eq_none member here
    rw [List.cons_append, without_cons missing]
    have later : Separated names (before ++ [c]) (h ++ t) := separated.of_cons
    rw [ih later, List.cons_append]
    intro p front proper
    rw [List.append_assoc]
    exact inside (c :: p) (List.cons_prefix_cons.mpr ⟨rfl, front⟩) (by simpa using proper)

/-- What is left up to a place, with no rule starting on the way, stands in the text as it is. -/
theorem Separated.exists_eq_append {h rest : Text} (separated : Separated names before t)
    (inside : ∀ p, p <+: h → p ≠ h → ¬ AtRuleStart (before ++ p))
    (left : without .balanced names t = h ++ rest) :
    ∃ t', t = h ++ t' ∧ rest = without .balanced names t' := by
  induction h generalizing before t with
  | nil => exact ⟨t, rfl, left.symm⟩
  | cons c h ih =>
    have here : ¬ AtRuleStart before := by
      simpa using inside [] List.nil_prefix (by simp)
    cases t with
    | nil => simp at left
    | cons d t =>
      rw [without_cons fun name member => separated.length?_eq_none member here] at left
      obtain ⟨rfl, behind⟩ := List.cons_eq_cons.mp left
      have later : Separated names (before ++ [d]) t := separated.of_cons
      obtain ⟨t', rfl, same⟩ := ih later (by
        intro p front proper
        rw [List.append_assoc]
        exact inside (d :: p) (List.cons_prefix_cons.mpr ⟨rfl, front⟩) (by simpa using proper))
        behind
      exact ⟨t', rfl, same⟩

/-- A head in what is left behind a character stands in the text behind that character. -/
theorem head_of_without {c : Char} {head rest : Text} (plain : Plain name)
    (separated : Separated names (before ++ [c]) t) (isHead : IsHead name head)
    (left : c :: without .balanced names t = head ++ '{' :: rest) :
    ∃ t', c :: t = head ++ '{' :: t' ∧ rest = without .balanced names t' := by
  obtain ⟨blanks, rfl, blank⟩ := isHead
  obtain ⟨rfl, behind⟩ := List.cons_eq_cons.mp left
  have behind : without .balanced names t = (name ++ blanks ++ ['{']) ++ rest := by
    simpa using behind
  obtain ⟨t', rfl, same⟩ := separated.exists_eq_append (by
    intro p front proper
    rw [List.append_assoc]
    have front : p <+: name ++ blanks := by
      rcases prefix_append_cases front with early | ⟨q, late, rfl⟩
      · exact early
      · rcases List.prefix_cons_iff.mp late with rfl | ⟨r, rfl, -⟩
        · simp
        · obtain rfl := List.prefix_nil.mp (List.cons_prefix_cons.mp late).2
          exact absurd rfl proper
    have isHead : IsHead name ('.' :: name ++ blanks) := ⟨blanks, rfl, blank⟩
    exact isHead.not_atRuleStart plain (List.cons_prefix_cons.mpr ⟨rfl, front⟩) (by simp)) behind
  exact ⟨t', by simp, same⟩

/-- Cutting one class out of a separated stylesheet leaves it separated. A text behind which a rule
can start may be shortened by a rule at its end. -/
theorem Separated.without_singleton {before' : Text} (plain : ∀ other ∈ names, Plain other) :
    (∀ q, AtRuleStart (before ++ q) → AtRuleStart (before' ++ q)) →
      Separated (name :: names) before t →
      Separated names before' (without .balanced [name] t) := by
  apply without_induction (motive := fun t left => ∀ {before before'},
    (∀ q, AtRuleStart (before ++ q) → AtRuleStart (before' ++ q)) →
    Separated (name :: names) before t → Separated names before' left)
  · intro before before' _ _ other _ front head rest split
    simp at split
  · intro c t missing ih before before' start separated other member front head rest split isHead
    cases front with
    | nil =>
      have behind : Separated [name] (before ++ [c]) t :=
        separated.of_cons.of_subset (by simp)
      obtain ⟨t', same, -⟩ := head_of_without (plain other member) behind isHead split
      have here := separated other (List.mem_cons_of_mem _ member) [] head t' same isHead
      exact start [] here
    | cons d front =>
      obtain ⟨rfl, behind⟩ := List.cons_eq_cons.mp split
      have later := @ih (before ++ [c]) (before' ++ [c])
        (fun q => by simpa using start (c :: q)) separated.of_cons
        other member front head rest behind isHead
      simpa using later
  · intro cutName cutMember rule rest isRule ih before before' start separated
    obtain rfl : cutName = name := by simpa using cutMember
    have here : AtRuleStart before' := by
      simpa using start [] (by simpa using separated.atRuleStart (by simp) isRule)
    refine ih (fun q behind => ?_) separated.of_append
    exact here.of_append_closed (isRule.ends.trans (List.suffix_append before rule)) behind

/-- A rule in what is left behind a character that no cut rule starts with is a rule of the text. -/
theorem length?_without_eq_none {c : Char} (plain : Plain name)
    (free : ∀ other ∈ names, BraceFree other) (separated : Separated names (before ++ [c]) t)
    (missing : length? .balanced name (c :: t) = none) :
    length? .balanced name (c :: without .balanced names t) = none := by
  rw [length?_eq_none_iff] at missing ⊢
  intro rule rest split isRule
  obtain ⟨head, body, rfl, isHead, closes⟩ := isRule_iff.mp isRule
  have whole : c :: without .balanced names t = head ++ '{' :: (body ++ rest) := by
    simpa using split
  obtain ⟨t', same, left⟩ := head_of_without plain separated isHead whole
  -- The brace that closes the block in what is left closes it in the text.
  have ends : Ends 1 (without .balanced names t') := ⟨body, rest, left.symm, closes⟩
  obtain ⟨body', rest', rfl, closes'⟩ := (ends_without_iff free (by decide)).mp ends
  exact missing (head ++ '{' :: body') rest' (by simpa using same)
    (isRule_iff.mpr ⟨head, body', rfl, isHead, closes'⟩)

/-- What is left of a separated stylesheet holds no rule of its classes. -/
theorem Separated.not_occurs_without (plain : ∀ other ∈ names, Plain other) :
    Separated names before t →
      ∀ name ∈ names, ¬ Occurs .balanced name (without .balanced names t) := by
  have free : ∀ other ∈ names, BraceFree other := fun other member => (plain other member).braceFree
  apply without_induction (motive := fun t left => ∀ {before}, Separated names before t →
    ∀ name ∈ names, ¬ Occurs .balanced name left)
  · intro before _ name _
    exact not_occurs_nil
  · intro c t missing ih before separated name member
    rw [occurs_cons_iff, length?_without_eq_none (plain name member) free separated.of_cons
      (missing name member)]
    intro occurs
    rcases occurs with here | later
    · simp at here
    · exact ih separated.of_cons name member later
  · intro other _ rule rest _ ih before separated
    exact ih separated.of_append

/-- Cutting another class out of a rule leaves a rule of its class. -/
theorem IsRule.without_of_ne {cutName rule : Text} (isRule : IsRule .balanced name rule)
    (plain : Plain name) (free : BraceFree cutName) (separated : Separated [cutName] before rule)
    (other : length? .balanced cutName rule = none) :
    IsRule .balanced name (without .balanced [cutName] rule) := by
  obtain ⟨head, body, rfl, ⟨blanks, rfl, blank⟩, closes⟩ := isRule_iff.mp isRule
  -- The head is kept, and so is the brace behind it.
  have kept : without .balanced [cutName] ('.' :: name ++ blanks ++ '{' :: body) =
      '.' :: name ++ blanks ++ '{' :: without .balanced [cutName] body := by
    have behind : Separated [cutName] (before ++ ['.']) (name ++ blanks ++ '{' :: body) :=
      Separated.of_cons separated
    rw [List.cons_append, List.cons_append, without_cons (by simpa using other),
      behind.without_append, without_cons]
    · rfl
    · intro name _
      exact length?_eq_none_of_ne_dot (by decide)
    · intro p front _
      rw [List.append_assoc]
      have isHead : IsHead name ('.' :: name ++ blanks) := ⟨blanks, rfl, blank⟩
      exact isHead.not_atRuleStart plain (List.cons_prefix_cons.mpr ⟨rfl, front⟩) (by simp)
  rw [kept]
  have left : Closes none 1 (without .balanced [cutName] body) :=
    closes_without (by simpa using free) (by decide) closes
  exact isRule_iff.mpr ⟨_, _, rfl, ⟨blanks, rfl, blank⟩, left⟩

/-- Cutting one class and then others out of a separated stylesheet is cutting them all out in one
pass. -/
theorem without_without (plain : ∀ other ∈ name :: names, Plain other) :
    Separated (name :: names) before t →
      without .balanced names (without .balanced [name] t) =
        without .balanced (name :: names) t := by
  have free : ∀ other ∈ name :: names, BraceFree other := fun other member =>
    (plain other member).braceFree
  obtain ⟨freeFirst, freeNames⟩ := List.forall_mem_cons.mp free
  have freeName : ∀ other ∈ [name], BraceFree other := by simpa using freeFirst
  apply without_induction (motive := fun t left => ∀ {before},
    Separated (name :: names) before t →
    without .balanced names (without .balanced [name] t) = left)
  · intro before _
    simp
  · intro c t missing ih before separated
    have later := separated.of_cons
    rw [without_cons (by simpa using missing name (by simp)), without_cons, ih later]
    intro other member
    exact length?_without_eq_none (plain other (List.mem_cons_of_mem _ member)) freeName
      (later.of_subset (by simp)) (missing other (by simp [member]))
  · intro other member rule rest isRule ih before separated
    have later := ih separated.of_append
    cases found : length? .balanced name rule with
    | some n =>
      -- The rule of the class that goes first is the same text.
      obtain ⟨rule', rest', same, -, isRule'⟩ := length?_eq_some_iff.mp found
      obtain rfl : rule' = rule := isRule'.unique isRule freeFirst (free other member)
        (show rule' ++ rest' = rule ++ [] by rw [← same, List.append_nil])
      rw [isRule'.without_append (by simp) freeName, later]
    | none =>
      have among : other ∈ names := by
        rcases List.mem_cons.mp member with rfl | among
        · have here := isRule.length?_append []
          rw [List.append_nil, found] at here
          simp at here
        · exact among
      have isolated := isRule.sealed (free other member)
      have alone : Separated [name] before rule := separated.of_front.of_subset (by simp)
      have isRule' := isRule.without_of_ne (plain other member) freeFirst alone found
      rw [without_append_of_sealed freeName rest isolated,
        isRule'.without_append among freeNames, later]

/-- The rules of separated classes are cut out one class after the other just as they are in one
pass. -/
theorem withoutInTurn_eq (plain : ∀ name ∈ names, Plain name) {css : Text}
    (separated : Separated names [] css) :
    withoutInTurn .balanced names css = without .balanced names css := by
  induction names generalizing css with
  | nil => rw [withoutInTurn, without_no_names]
  | cons name names ih =>
    obtain ⟨-, plainLater⟩ := List.forall_mem_cons.mp plain
    have later : Separated names [] (without .balanced [name] css) :=
      Separated.without_singleton plainLater (fun q start => start) separated
    rw [withoutInTurn, ih plainLater later, without_without plain separated]

end RulePruner.Rule
