import RulePruner.Proofs.Text.Newline

/-!
# Spelling of line ends

The newlines of a text can be spelled as newlines, as pairs of a carriage return and a newline, and
as lone carriage returns. The main statement is `Text.respelled_iff`: the spellings of a text are
exactly what is read as that text.
-/

namespace RulePruner.Text

/-- `Respelled t u` says that `u` is `t` with each of its newlines spelled in one of three ways. A
lone carriage return is not followed by a newline that is spelled as one, with which it would be a
pair. -/
inductive Respelled : Text → Text → Prop where
  | nil : Respelled [] []
  | other {c : Char} {t u : Text} : c ≠ '\n' → c ≠ '\r' → Respelled t u →
      Respelled (c :: t) (c :: u)
  | newline {t u : Text} : Respelled t u → Respelled ('\n' :: t) ('\n' :: u)
  | pair {t u : Text} : Respelled t u → Respelled ('\n' :: t) ('\r' :: '\n' :: u)
  | lone {t u : Text} : u.head? ≠ some '\n' → Respelled t u → Respelled ('\n' :: t) ('\r' :: u)

variable {t u : Text}

/-- However its line ends are spelled, a text is read alike. -/
theorem Respelled.normalize_eq (respelled : Respelled t u) : normalize u = t := by
  induction respelled with
  | nil => rfl
  | other _ notReturn _ ih => rw [normalize_other _ notReturn, ih]
  | newline _ ih => rw [normalize_other _ (by decide), ih]
  | pair _ ih => rw [normalize_pair, ih]
  | lone apart _ ih => rw [normalize_return _ apart, ih]

/-- Every text is a spelling of what is read of it. -/
theorem respelled_normalize (u : Text) : Respelled (normalize u) u := by
  apply normalize_induction (motive := fun u t => Respelled t u)
  · exact .nil
  · intro c u notReturn respelled
    by_cases newline : c = '\n'
    · exact newline ▸ .newline respelled
    · exact .other newline notReturn respelled
  · intro u respelled
    exact .pair respelled
  · intro u apart respelled
    exact .lone apart respelled

/-- The spellings of a text are what is read as that text. -/
theorem respelled_iff : Respelled t u ↔ normalize u = t :=
  ⟨Respelled.normalize_eq, fun read => read ▸ respelled_normalize u⟩

/-- A text without carriage returns is a spelling of itself. -/
theorem Respelled.refl (clean : '\r' ∉ t) : Respelled t t :=
  respelled_iff.mpr (normalize_of_not_mem clean)

/-- A text that has a spelling is free of carriage returns. -/
theorem Respelled.clean (respelled : Respelled t u) : '\r' ∉ t :=
  respelled.normalize_eq ▸ not_mem_normalize u

end RulePruner.Text
