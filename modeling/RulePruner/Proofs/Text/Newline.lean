import RulePruner.ClassList
import RulePruner.Text.Newline

/-!
# Line ends and newline runs

Reading line ends leaves no carriage return and changes nothing else, and capping newline runs only
drops newlines and is done once for all. The names of a class list hold no newline.
-/

namespace RulePruner

namespace Text

theorem normalize_of_not_mem {t : Text} (clean : '\r' ∉ t) : normalize t = t := by
  induction t with
  | nil => rfl
  | cons c t ih =>
    rw [List.mem_cons, not_or] at clean
    rw [normalize_other t (Ne.symm clean.1), ih clean.2]

/-- Line ends are read one character, or one pair of characters, at a time. -/
theorem normalize_induction {motive : Text → Text → Prop} (nil : motive [] [])
    (other : ∀ c t, c ≠ '\r' → motive t (normalize t) → motive (c :: t) (c :: normalize t))
    (pair : ∀ t, motive t (normalize t) → motive ('\r' :: '\n' :: t) ('\n' :: normalize t))
    (lone : ∀ t, t.head? ≠ some '\n' → motive t (normalize t) →
      motive ('\r' :: t) ('\n' :: normalize t)) (t : Text) : motive t (normalize t) := by
  induction size : t.length using Nat.strongRecOn generalizing t with
  | ind size ih =>
    subst size
    cases t with
    | nil => exact nil
    | cons c t =>
      by_cases returns : c = '\r'
      · subst returns
        by_cases paired : t.head? = some '\n'
        · obtain ⟨t, rfl⟩ := List.head?_eq_some_iff.mp paired
          have shorter : t.length < ('\r' :: '\n' :: t).length := by
            simp only [List.length_cons]
            omega
          rw [normalize_pair]
          exact pair t (ih t.length shorter t rfl)
        · rw [normalize_return t paired]
          exact lone t paired (ih t.length (by simp) t rfl)
      · rw [normalize_other t returns]
        exact other c t returns (ih t.length (by simp) t rfl)

theorem not_mem_normalize (t : Text) : '\r' ∉ normalize t := by
  apply normalize_induction (motive := fun _ read => '\r' ∉ read)
  · simp
  · intro c t other clean
    simp [Ne.symm other, clean]
  · intro t clean
    simp [clean]
  · intro t _ clean
    simp [clean]

theorem capNewlines_sublist (room : Nat) (t : Text) : (capNewlines room t).Sublist t := by
  induction t generalizing room with
  | nil => exact List.Sublist.refl []
  | cons c t ih =>
    by_cases newline : c = '\n'
    · subst newline
      cases room with
      | zero => exact (ih 0).cons '\n'
      | succ room =>
        rw [capNewlines_succ_newline]
        exact (ih room).cons_cons '\n'
    · rw [capNewlines_other room t newline]
      exact (ih 2).cons_cons c

theorem collapse_sublist (t : Text) : (collapse t).Sublist t := capNewlines_sublist 2 t

/-- Of two caps the tighter one counts. -/
theorem capNewlines_capNewlines (room room' : Nat) (t : Text) :
    capNewlines room (capNewlines room' t) = capNewlines (min room room') t := by
  induction t generalizing room room' with
  | nil => rfl
  | cons c t ih =>
    by_cases newline : c = '\n'
    · subst newline
      cases room' with
      | zero => simpa [capNewlines_zero_newline] using ih room 0
      | succ room' =>
        cases room with
        | zero => simpa [capNewlines_succ_newline, capNewlines_zero_newline] using ih 0 room'
        | succ room =>
          simp only [capNewlines_succ_newline, ih, Nat.add_min_add_right]
    · simp only [capNewlines_other _ _ newline, ih, Nat.min_self]

theorem collapse_collapse (t : Text) : collapse (collapse t) = collapse t :=
  capNewlines_capNewlines 2 2 t

/-- Any other character ends a run of newlines, so what follows it is capped afresh. -/
theorem capNewlines_append_cons (room : Nat) (a : Text) {c : Char} (other : c ≠ '\n') (b : Text) :
    capNewlines room (a ++ c :: b) = capNewlines room a ++ c :: capNewlines 2 b := by
  induction a generalizing room with
  | nil => exact capNewlines_other room b other
  | cons d a ih =>
    by_cases newline : d = '\n'
    · subst newline
      cases room with
      | zero => exact ih 0
      | succ room =>
        rw [List.cons_append, capNewlines_succ_newline, capNewlines_succ_newline, ih,
          List.cons_append]
    · rw [List.cons_append, capNewlines_other _ _ newline, capNewlines_other _ _ newline, ih,
        List.cons_append]

/-- A text without newlines is left as it is, and what follows it is capped afresh. -/
theorem capNewlines_append_of_not_mem {a : Text} (plain : '\n' ∉ a) (b : Text) :
    capNewlines 2 (a ++ b) = a ++ capNewlines 2 b := by
  induction a with
  | nil => rfl
  | cons c a ih =>
    rw [List.mem_cons, not_or] at plain
    rw [List.cons_append, capNewlines_other 2 _ (Ne.symm plain.1), ih plain.2, List.cons_append]

/-- The fronts of a capped text are the capped fronts of the text. -/
theorem exists_prefix_of_capNewlines {room : Nat} {p t : Text} (front : p <+: capNewlines room t) :
    ∃ q, q <+: t ∧ p = capNewlines room q := by
  induction t generalizing room p with
  | nil => exact ⟨[], List.nil_prefix, List.prefix_nil.mp front⟩
  | cons c t ih =>
    by_cases newline : c = '\n'
    · subst newline
      cases room with
      | zero =>
        obtain ⟨q, inside, rfl⟩ := ih (show p <+: capNewlines 0 t from front)
        exact ⟨'\n' :: q, List.cons_prefix_cons.mpr ⟨rfl, inside⟩, rfl⟩
      | succ room =>
        rw [capNewlines_succ_newline] at front
        rcases List.prefix_cons_iff.mp front with rfl | ⟨p, rfl, inner⟩
        · exact ⟨[], List.nil_prefix, rfl⟩
        · obtain ⟨q, inside, rfl⟩ := ih inner
          exact ⟨'\n' :: q, List.cons_prefix_cons.mpr ⟨rfl, inside⟩,
            (capNewlines_succ_newline room q).symm⟩
    · rw [capNewlines_other room t newline] at front
      rcases List.prefix_cons_iff.mp front with rfl | ⟨p, rfl, inner⟩
      · exact ⟨[], List.nil_prefix, rfl⟩
      · obtain ⟨q, inside, rfl⟩ := ih inner
        exact ⟨c :: q, List.cons_prefix_cons.mpr ⟨rfl, inside⟩,
          (capNewlines_other room q newline).symm⟩

end Text

namespace ClassList

theorem not_mem_of_mem_splitOn {line t : Text} {c : Char} (listed : line ∈ t.splitOn c) :
    c ∉ line := by
  induction t generalizing line with
  | nil =>
    obtain rfl : line = [] := by simpa using listed
    simp
  | cons d t ih =>
    rw [List.splitOn_cons_eq_if_modifyHead] at listed
    split at listed
    · rcases List.mem_cons.mp listed with rfl | later
      · simp
      · exact ih later
    · rename_i other
      cases lines : t.splitOn c with
      | nil => exact absurd lines (List.splitOn_ne_nil c t)
      | cons first lines' =>
        rw [lines, List.modifyHead_cons] at listed
        rcases List.mem_cons.mp listed with rfl | later
        · rw [List.mem_cons, not_or]
          exact ⟨fun same => other (by simp [same]), ih (lines ▸ List.mem_cons_self)⟩
        · exact ih (lines ▸ List.mem_cons_of_mem first later)

theorem trim_subset (t : Text) : Text.trim t ⊆ t := by
  intro c member
  have inner := (List.dropWhile_sublist _).subset (List.mem_reverse.mp member)
  exact (List.dropWhile_sublist _).subset (List.mem_reverse.mp inner)

/-- No name of a class list holds a newline. -/
theorem newline_not_mem_of_mem_parse {name t : Text} (listed : name ∈ parse t) : '\n' ∉ name := by
  simp only [parse, List.mem_filter, List.mem_map] at listed
  obtain ⟨⟨line, member, rfl⟩, -⟩ := listed
  intro newline
  exact not_mem_of_mem_splitOn member (trim_subset line newline)

/-- A text that holds no blank has none to be trimmed. -/
theorem trim_of_forall_not_blank {t : Text} (shown : ∀ c ∈ t, Text.isBlank c = false) :
    Text.trim t = t := by
  have front {u : Text} (within : ∀ c ∈ u, Text.isBlank c = false) :
      u.dropWhile Text.isBlank = u := by
    cases u with
    | nil => rfl
    | cons c u => exact List.dropWhile_cons_of_neg (by simp [within c])
  rw [Text.trim, front shown, front (by simpa using shown), List.reverse_reverse]

/-- A trimmed line is a class list of one name. -/
theorem parse_eq_singleton {name : Text} (proper : name ≠ []) (plain : '\n' ∉ name)
    (trimmed : Text.trim name = name) : parse name = [name] := by
  simp [parse, List.splitOn_eq_singleton plain, trimmed, proper]

end ClassList

end RulePruner
