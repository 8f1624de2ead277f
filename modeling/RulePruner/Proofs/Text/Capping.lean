import RulePruner.Proofs.Text.Runs

/-!
# What capping does to the runs of a text

Capping takes every run of newlines to at most two and keeps all other runs, so the runs of what it
leaves are the capped runs of the text (`Text.runs_collapse`). A search from the left that replaces
each stretch of three newlines and more by two, as long a stretch as there is, comes to the same
(`Text.replaced_iff`). Capping can be done in parts and once more on the whole
(`Text.collapse_collapse_append`). The main statement is `Text.collapse_caps`.
-/

namespace RulePruner.Text

/-- What capping leaves of a run. -/
def cappedRun (run : Text) : Text :=
  if run.head? = some '\n' then List.replicate (min run.length 2) '\n' else run

/-- Replacing newlines by two, wherever three of them or more are found. The search goes from the
left, a match starts at the first place at which one can, and it is as long as it can be. -/
inductive Replaced : Text → Text → Prop
  | unmatched {t : Text} : ¬ ['\n', '\n', '\n'] <:+: t → Replaced t t
  | matched {front rest result : Text} {k : Nat} :
      ¬ ['\n', '\n', '\n'] <:+: front ++ ['\n', '\n'] → 3 ≤ k → rest.head? ≠ some '\n' →
      Replaced rest result →
      Replaced (front ++ (List.replicate k '\n' ++ rest)) (front ++ (['\n', '\n'] ++ result))

variable {c : Char} {front rest result t : Text}

theorem head?_capNewlines_succ (room : Nat) (t : Text) :
    (capNewlines (room + 1) t).head? = t.head? := by
  cases t with
  | nil => rfl
  | cons c t =>
    by_cases newline : c = '\n'
    · subst newline
      rw [capNewlines_succ_newline, List.head?_cons, List.head?_cons]
    · rw [capNewlines_other _ _ newline, List.head?_cons, List.head?_cons]

theorem head?_collapse (t : Text) : (collapse t).head? = t.head? := head?_capNewlines_succ 1 t

/-- Capping leaves at least one character of a run. -/
theorem capped_length_succ (c : Char) (k : Nat) :
    (if c = '\n' then min (k + 1) 2 else k + 1) = (if c = '\n' then min k 1 else k) + 1 := by
  split <;> omega

/-- A run that is not of three newlines or more keeps its length. -/
theorem capped_length_eq {k : Nat} (short : c = '\n' → k ≤ 2) :
    (if c = '\n' then min k 2 else k) = k := by
  split
  · next newline => exact Nat.min_eq_left (short newline)
  · rfl

theorem cappedRun_replicate (c : Char) (k : Nat) :
    cappedRun (List.replicate (k + 1) c) =
      List.replicate (if c = '\n' then min (k + 1) 2 else k + 1) c := by
  unfold cappedRun
  by_cases newline : c = '\n'
  · subst newline
    simp [List.replicate_succ]
  · simp [List.replicate_succ, newline]

/-- The runs of a capped text are the runs of the text, each of them capped. -/
theorem runs_collapse (t : Text) : runs (collapse t) = (runs t).map cappedRun := by
  induction t using runs_induction with
  | nil => rfl
  | run c k rest other ih =>
    have other' : (collapse rest).head? ≠ some c := by rwa [head?_collapse]
    rw [collapse_replicate_append (k + 1) other, runs_replicate_append k other, List.map_cons,
      cappedRun_replicate, capped_length_succ, runs_replicate_append _ other', ih]

/-- A capped text is made of the capped runs. -/
theorem collapse_eq_flatten (t : Text) : collapse t = ((runs t).map cappedRun).flatten := by
  rw [← runs_collapse, runs, List.flatten_splitBy]

/-- What is no newline stays, in order. -/
theorem filter_collapse (t : Text) :
    (collapse t).filter (· ≠ '\n') = t.filter (· ≠ '\n') := by
  induction t using runs_induction with
  | nil => rfl
  | run c k rest other ih =>
    rw [collapse_replicate_append (k + 1) other, List.filter_append, List.filter_append, ih]
    by_cases newline : c = '\n'
    · simp [newline]
    · rw [if_neg newline]

/-- A run of newlines does not go on behind another character. -/
theorem collapse_append_of_getLast? (other : front.getLast? ≠ some '\n') (rest : Text) :
    collapse (front ++ rest) = collapse front ++ collapse rest := by
  rcases List.eq_nil_or_concat front with rfl | ⟨front, c, rfl⟩
  · rfl
  · have shown : c ≠ '\n' := by simpa using other
    have whole (b : Text) := capNewlines_append_cons 2 front shown b
    have alone := whole []
    rw [List.concat_eq_append, List.append_assoc, List.singleton_append]
    unfold collapse
    rw [whole rest, alone, capNewlines_nil, List.append_assoc, List.singleton_append]

/-- A match of a search from the left does not start behind a newline. -/
theorem getLast?_ne_of_leftmost (leftmost : ¬ ['\n', '\n', '\n'] <:+: front ++ ['\n', '\n']) :
    front.getLast? ≠ some '\n' := by
  intro last
  obtain ⟨earlier, rfl⟩ := List.getLast?_eq_some_iff.mp last
  exact leftmost ⟨earlier, [], by simp⟩

/-- The search finds what capping takes out. -/
theorem Replaced.eq_collapse (replaced : Replaced t result) : result = collapse t := by
  induction replaced with
  | unmatched plain => exact ((collapse_eq_self_iff _).mpr plain).symm
  | @matched front rest result k leftmost long other replaced ih =>
    have plain : ¬ ['\n', '\n', '\n'] <:+: front :=
      fun inside => leftmost (inside.trans (List.prefix_append _ _).isInfix)
    have kept : collapse front = front := (collapse_eq_self_iff front).mpr plain
    have two : min k 2 = 2 := Nat.min_eq_right (by omega)
    rw [collapse_append_of_getLast? (getLast?_ne_of_leftmost leftmost), kept,
      collapse_replicate_append k other, if_pos rfl, two, ih]
    rfl

/-- A run that is kept can be put in front of a search. -/
theorem Replaced.run_append {k : Nat} (replaced : Replaced rest result)
    (other : rest.head? ≠ some c) (short : c = '\n' → k + 1 ≤ 2) :
    Replaced (List.replicate (k + 1) c ++ rest) (List.replicate (k + 1) c ++ result) := by
  have plain {u : Text} (apart : u.head? ≠ some c) (clean : ¬ ['\n', '\n', '\n'] <:+: u) :
      ¬ ['\n', '\n', '\n'] <:+: List.replicate (k + 1) c ++ u := by
    rw [← collapse_eq_self_iff] at clean ⊢
    rw [collapse_replicate_append (k + 1) apart, capped_length_eq short, clean]
  cases replaced with
  | unmatched clean => exact .unmatched (plain other clean)
  | @matched front rest result j leftmost long other' replaced =>
    -- Both the front with its two newlines and the whole rest start with the same character.
    have apart : (front ++ ['\n', '\n']).head? ≠ some c := by
      cases front with
      | nil =>
        obtain ⟨j, rfl⟩ := Nat.exists_eq_add_of_le' long
        simpa [List.replicate_succ] using other
      | cons d front => simpa using other
    have leftmost' := plain apart leftmost
    rw [← List.append_assoc] at leftmost'
    rw [← List.append_assoc, ← List.append_assoc (List.replicate (k + 1) c)]
    exact .matched leftmost' long other' replaced

theorem replaced_collapse (t : Text) : Replaced t (collapse t) := by
  induction t using runs_induction with
  | nil => exact .unmatched (by simp)
  | run c k rest other ih =>
    rw [collapse_replicate_append (k + 1) other]
    by_cases long : c = '\n' ∧ 3 ≤ k + 1
    · obtain ⟨rfl, long⟩ := long
      have two : min (k + 1) 2 = 2 := Nat.min_eq_right (by omega)
      have leftmost : ¬ ['\n', '\n', '\n'] <:+: ([] ++ ['\n', '\n'] : Text) := by
        intro inside
        have size := inside.length_le
        simp at size
      have found := Replaced.matched leftmost long other ih
      rw [if_pos rfl, two]
      exact found
    · have short : c = '\n' → k + 1 ≤ 2 := by
        intro newline
        have size := not_and.mp long newline
        omega
      rw [capped_length_eq short]
      exact ih.run_append other short

/-- Searching from the left and replacing is capping. -/
theorem replaced_iff : Replaced t result ↔ result = collapse t := by
  constructor
  · exact Replaced.eq_collapse
  · rintro rfl
    exact replaced_collapse t

/-- The text in front of another can be capped before, with as much room or more. -/
theorem capNewlines_append_left {room room' : Nat} (tighter : room ≤ room') (a b : Text) :
    capNewlines room (capNewlines room' a ++ b) = capNewlines room (a ++ b) := by
  induction a generalizing room room' with
  | nil => rfl
  | cons c a ih =>
    by_cases newline : c = '\n'
    · subst newline
      cases room' with
      | zero =>
        obtain rfl := Nat.le_zero.mp tighter
        exact ih (Nat.le_refl 0)
      | succ room' =>
        rw [capNewlines_succ_newline, List.cons_append, List.cons_append]
        cases room with
        | zero => exact ih (Nat.zero_le room')
        | succ room =>
          rw [capNewlines_succ_newline, capNewlines_succ_newline, ih (Nat.le_of_succ_le_succ tighter)]
    · rw [capNewlines_other _ _ newline, List.cons_append, List.cons_append,
        capNewlines_other _ _ newline, capNewlines_other _ _ newline, ih (Nat.le_refl 2)]

/-- The text behind another can be capped before. -/
theorem capNewlines_append_right {room : Nat} (small : room ≤ 2) (a b : Text) :
    capNewlines room (a ++ collapse b) = capNewlines room (a ++ b) := by
  induction a generalizing room with
  | nil =>
    have tighter := capNewlines_capNewlines room 2 b
    rwa [Nat.min_eq_left small] at tighter
  | cons c a ih =>
    rw [List.cons_append, List.cons_append]
    by_cases newline : c = '\n'
    · subst newline
      cases room with
      | zero => exact ih small
      | succ room =>
        rw [capNewlines_succ_newline, capNewlines_succ_newline, ih (Nat.le_of_succ_le small)]
    · rw [capNewlines_other _ _ newline, capNewlines_other _ _ newline, ih (Nat.le_refl 2)]

/-- Two texts can be capped before they are joined, if the whole is capped once more. -/
theorem collapse_collapse_append (a b : Text) :
    collapse (collapse a ++ collapse b) = collapse (a ++ b) := by
  have right := capNewlines_append_right (Nat.le_refl 2) (collapse a) b
  exact right.trans (capNewlines_append_left (Nat.le_refl 2) a b)

/-- Capping takes each run of newlines to at most two and leaves everything else as it is. It is
what a search from the left makes of a text that replaces three newlines and more by two, the result
has no three newlines in a row, only texts that have three in a row are changed, and a text can be
capped in parts. -/
theorem collapse_caps (t : Text) :
    runs (collapse t) = (runs t).map cappedRun ∧
    collapse t = ((runs t).map cappedRun).flatten ∧
    (collapse t).filter (· ≠ '\n') = t.filter (· ≠ '\n') ∧
    (∀ result, Replaced t result ↔ result = collapse t) ∧
    ¬ ['\n', '\n', '\n'] <:+: collapse t ∧
    collapse (collapse t) = collapse t ∧
    (collapse t = t ↔ ¬ ['\n', '\n', '\n'] <:+: t) ∧
    ∀ b, collapse (t ++ b) = collapse (collapse t ++ collapse b) := by
  have again := collapse_collapse t
  refine ⟨runs_collapse t, collapse_eq_flatten t, filter_collapse t, fun _ => replaced_iff, ?_, again,
    collapse_eq_self_iff t, fun b => (collapse_collapse_append t b).symm⟩
  exact (collapse_eq_self_iff _).mp again

/-- A run that spans the seam and was shortened on both sides. -/
example : collapse ("a\n\n\n".toList ++ "\n\n\n\nb".toList) = "a\n\nb".toList := by decide

end RulePruner.Text
