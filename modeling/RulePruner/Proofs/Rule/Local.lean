import RulePruner.Proofs.Cutting.Append
import RulePruner.Proofs.Removal
import RulePruner.Proofs.Rule.Leftmost

/-!
# A stylesheet is searched piece by piece

A piece of a stylesheet that is well nested and ends in a closing brace is searched apart from what
follows it: no head of a rule gets past that brace, and no block that opens in the piece is open at
its end. The main statement is `Rule.spans_append_of_closed`. The class name can be any text without
braces.
-/

namespace RulePruner

/-- The number of rules that a removal takes out, or that none does. -/
def Removal.taken (removal : Option Removal) : Nat := (removal.map Removal.count).getD 0

theorem Removal.taken_ofCutting? (cutting : Cutting) :
    taken (ofCutting? cutting) = cutting.count := by
  unfold ofCutting?
  split
  · rename_i empty
    rw [Cutting.count, List.isEmpty_iff.mp empty]
    rfl
  · rfl

namespace Rule

open Text

variable {strategy : Strategy} {name a : Text}

/-- In a well-nested text that ends in a closing brace, whatever starts with a dot is closed. -/
theorem sealed_of_wellNested (nested : WellNested a)
    (closed : (a.rdropWhile isBlank).getLast? = some '}') : Sealed a := by
  rintro front v rfl
  have shown : ('.' :: v).rdropWhile isBlank ≠ [] := by
    rw [rdropWhile_dot]
    exact List.cons_ne_nil '.' _
  rw [rdropWhile_append_of_ne_nil shown, rdropWhile_dot, List.getLast?_append,
    List.getLast?_cons] at closed
  constructor
  · cases last : (v.rdropWhile isBlank).getLast? with
    | none => simp [last] at closed
    | some c =>
      obtain rfl : c = '}' := by simpa [last] using closed
      exact (List.rdropWhile_prefix isBlank v).subset (List.mem_of_getLast? last)
  · have level := nested.depth_suffix_nonpos
    rwa [depth_cons, weight_other (by decide) (by decide), Int.zero_add] at level

/-- The rules of a class are cut out of a sealed text apart from what follows it. -/
theorem cut_append_of_sealed (free : BraceFree name) (closed : Sealed a) (b : Text) :
    cut strategy name (a ++ b) = (cut strategy name a).append (cut strategy name b) := by
  refine Cutting.of_append_of_apart (measures_length? strategy name)
    (recognises_length? strategy name) fun front rest split more missing => ?_
  obtain ⟨c, u, rfl⟩ := List.exists_cons_of_ne_nil more
  exact (Sealed.of_suffix (split ▸ closed)).length?_append free b missing

/-- Let a text be well nested, with a closing brace as its last character apart from blanks. In
front of any other text it keeps its spans, and those of the other text are moved by its size; so a
removal leaves what it leaves of each of the two, and the rules that it takes out add up. -/
theorem spans_append_of_closed (free : BraceFree name) (supported : supports strategy name = true)
    (nested : WellNested a) (closed : (a.rdropWhile isBlank).getLast? = some '}') (b : Text) :
    ∃ (first second : List Span) (removal removal' whole : Option Removal),
      spans strategy name a = .ok first ∧ spans strategy name b = .ok second ∧
      spans strategy name (a ++ b) = .ok (first ++ second.map (Span.shift (byteSize a))) ∧
      remove strategy name a = .ok removal ∧ remove strategy name b = .ok removal' ∧
      remove strategy name (a ++ b) = .ok whole ∧
      Removal.left (a ++ b) whole = Removal.left a removal ++ Removal.left b removal' ∧
      Removal.taken whole = Removal.taken removal + Removal.taken removal' := by
  have apart : cut strategy name (a ++ b) = (cut strategy name a).append (cut strategy name b) :=
    cut_append_of_sealed free (sealed_of_wellNested nested closed) b
  refine ⟨_, _, _, _, _, spans_of_supports supported a, spans_of_supports supported b, ?_,
    remove_of_supports supported a, remove_of_supports supported b,
    remove_of_supports supported (a ++ b), ?_, ?_⟩
  · rw [spans_of_supports supported, apart, Cutting.spans_append, text_cut]
  · rw [left_cut, left_cut, left_cut, ← remaining_cut, ← remaining_cut, ← remaining_cut, apart,
      Cutting.remaining_append]
  · rw [Removal.taken_ofCutting?, Removal.taken_ofCutting?, Removal.taken_ofCutting?, apart,
      Cutting.count_append]

/-- A rule inside a piece and one behind it are found where they are found on their own. -/
theorem spans_append_of_closed_at_seam :
    let a := "é{.a{→}} \n".toList
    let b := ".a {}x".toList
    (BraceFree "a".toList ∧ supports .fast "a".toList = true ∧ WellNested a ∧
      (a.rdropWhile isBlank).getLast? = some '}') ∧
    ∃ (first second : List Span) (whole : Option Removal),
      spans .fast "a".toList a = .ok first ∧ spans .fast "a".toList b = .ok second ∧
      first = [⟨3, 10⟩] ∧ second = [⟨0, 5⟩] ∧
      spans .fast "a".toList (a ++ b) = .ok [⟨3, 10⟩, ⟨13, 18⟩] ∧
      remove .fast "a".toList (a ++ b) = .ok whole ∧
      Removal.left (a ++ b) whole = "é{} \nx".toList ∧ Removal.taken whole = 2 := by
  intro a b
  have free : BraceFree "a".toList := by decide
  have supported : supports .fast "a".toList = true := by decide
  have nested : WellNested a := by decide
  have closed : (a.rdropWhile isBlank).getLast? = some '}' := by decide
  obtain ⟨first, second, removal, removal', whole, searched, searched', together, removed, removed',
    removedAll, left, taken⟩ := spans_append_of_closed free supported nested closed b
  obtain rfl : [⟨3, 10⟩] = first :=
    Except.ok.inj (searched.symm.trans (congrArg Except.ok (by decide +kernel))).symm
  obtain rfl : [⟨0, 5⟩] = second :=
    Except.ok.inj (searched'.symm.trans (congrArg Except.ok (by decide +kernel))).symm
  obtain rfl : some ⟨"é{} \n".toList, 1, 7⟩ = removal :=
    Except.ok.inj (removed.symm.trans (congrArg Except.ok (by decide +kernel))).symm
  obtain rfl : some ⟨['x'], 1, 5⟩ = removal' :=
    Except.ok.inj (removed'.symm.trans (congrArg Except.ok (by decide +kernel))).symm
  exact ⟨⟨free, supported, nested, closed⟩, _, _, whole, searched, searched', rfl, rfl, together,
    removedAll, left, taken⟩

end Rule

end RulePruner
