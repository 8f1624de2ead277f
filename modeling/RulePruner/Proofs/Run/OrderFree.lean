import RulePruner.Proofs.Rule.Coverage
import RulePruner.Proofs.Rule.Separation
import RulePruner.Proofs.Run.Ending
import RulePruner.Proofs.Run.Files

/-!
# The text of a balanced run

On a stylesheet that is separated for the listed classes, a balanced run deletes exactly the
characters that lie in a rule of a listed class of the stylesheet as it was read, and caps the
newline runs of what is left. So its text depends on which classes are listed, but not on their
order or on how often they are listed. The main statement is `Run.balanced_text`.
-/

namespace RulePruner

open Text

namespace Rule

/-- Which places are covered depends on which classes are listed only. -/
theorem covered_congr {names names' : List Text} (same : ∀ name, name ∈ names' ↔ name ∈ names)
    (css : Text) (i : Nat) : Covered names' css i ↔ Covered names css i := by
  unfold Covered
  simp only [same]

end Rule

namespace Pass

open Rule

/-- A finished pass over a separated stylesheet leaves what no listed class covers. -/
theorem Steps.css_eq_deleting {names : List Text} {state after : State}
    (steps : Steps .balanced names state after none) (plain : ∀ name ∈ names, Plain name)
    (separated : Separated names [] state.css) :
    after.css = deleting (Covered names state.css) state.css := by
  rw [steps.css_eq.1, withoutInTurn_eq plain separated,
    without_eq_deleting (fun name member => (plain name member).braceFree)]

end Pass

namespace Run

variable {options : Options} {sink : Sink} {tree : FileTree} {names : List Text} {css : Text}

/-- There is only one text that a balanced run on a separated stylesheet gets to. -/
theorem eq_of_text? (balanced : options.strategy = .balanced)
    (loaded : load options tree = .ok (names, css)) (plain : ∀ name ∈ names, Rule.Plain name)
    (separated : Rule.Separated names [] css) {t : Text}
    (reached : text? options tree sink = some t) :
    t = collapse (deleting (Rule.Covered names css) css) := by
  obtain ⟨state, steps, rfl⟩ := (text?_eq_some_iff loaded).mp reached
  rw [balanced] at steps
  rw [steps.css_eq_deleting plain separated]

/-- A balanced run on a separated stylesheet gets to its text if the sink takes everything. -/
theorem text?_eq_some (balanced : options.strategy = .balanced)
    (loaded : load options tree = .ok (names, css)) (plain : ∀ name ∈ names, Rule.Plain name)
    (separated : Rule.Separated names [] css) (unlimited : sink.limit = none) :
    text? options tree sink = some (collapse (deleting (Rule.Covered names css) css)) := by
  obtain ⟨t, reached⟩ :=
    exists_text?_of_unlimited loaded (fun _ _ => by rw [balanced, Rule.supports]) unlimited
  rw [reached, eq_of_text? balanced loaded plain separated reached]

/-- Let the listed classes be plain and the stylesheet separated for them. Then a balanced run gets
to one text only, which is the stylesheet with the characters in rules of listed classes deleted and
the newline runs capped; if nothing is limited, it gets there, and succeeds exactly if it need not
write a read-only stylesheet. A successful run that is no dry run leaves that text in the
stylesheet, and any balanced run on that stylesheet with the same classes listed, in whatever order
and however often, gets to the same text. -/
theorem balanced_text (balanced : options.strategy = .balanced)
    (loaded : load options tree = .ok (names, css)) (plain : ∀ name ∈ names, Rule.Plain name)
    (separated : Rule.Separated names [] css) :
    let final := collapse (deleting (Rule.Covered names css) css)
    (∀ sink, sink.limit = none → text? options tree sink = some final ∧
      ((∃ outcome, (Run.perform options none sink tree).result = .ok outcome) ↔
        Unbarred options tree)) ∧
    (∀ sink t, text? options tree sink = some t → t = final) ∧
    (options.dryRun = false → ∀ fileLimit sink outcome,
      (Run.perform options fileLimit sink tree).result = .ok outcome →
        (Run.perform options fileLimit sink tree).tree.read options.stylesheet =
          .ok (encode final)) ∧
    ∀ options' tree' names', options'.strategy = .balanced →
      load options' tree' = .ok (names', css) → (∀ name, name ∈ names' ↔ name ∈ names) →
        ∀ sink, sink.limit = none → text? options' tree' sink = some final := by
  intro final
  refine ⟨?_, ?_, ?_, ?_⟩
  · intro sink unlimited
    refine ⟨text?_eq_some balanced loaded plain separated unlimited, ?_⟩
    exact exists_result_ok_iff loaded (fun _ _ => by rw [balanced, Rule.supports]) unlimited
  · intro sink t reached
    exact eq_of_text? balanced loaded plain separated reached
  · intro wet fileLimit sink outcome succeeds
    obtain ⟨state, steps, written⟩ := exists_steps_of_result_ok wet loaded succeeds
    have reached := (text?_eq_some_iff loaded).mpr ⟨state, steps, rfl⟩
    rw [eq_of_text? balanced loaded plain separated reached] at written
    obtain ⟨content, readable⟩ := exists_read_stylesheet loaded
    exact (FileTree.read_write readable written).2.1 _ rfl
  · intro options' tree' names' balanced' loaded' same sink unlimited
    -- The other list holds the same classes, so they are plain and separated too.
    have plain' : ∀ name ∈ names', Rule.Plain name := fun name listed =>
      plain name ((same name).mp listed)
    have separated' : Rule.Separated names' [] css :=
      separated.of_subset fun name listed => (same name).mp listed
    rw [text?_eq_some balanced' loaded' plain' separated' unlimited,
      deleting_congr (Rule.covered_congr same css)]

/-- Nested and neighbouring rules of listed classes are gone, and an unclosed one stays. -/
theorem balanced_text_of_nested_rules :
    let sheet := "p{}\n.b{.a{}}\n\n.a{}\n.c\x7b.b {}\n.a\x7b".toList
    let names := ["a".toList, "b".toList, "a".toList]
    (load {} (workspace "a\nb\na".toList sheet) = .ok (names, sheet) ∧
      (∀ name ∈ names, Rule.Plain name) ∧ Rule.Separated names [] sheet) ∧
    text? {} (workspace "a\nb\na".toList sheet) {} = some "p{}\n\n.c\x7b\n.a\x7b".toList := by
  intro sheet names
  have loaded : load {} (workspace "a\nb\na".toList sheet) = .ok (names, sheet) :=
    (load_workspace .balanced _ _).trans (congrArg Except.ok (by decide +kernel))
  have plain : ∀ name ∈ names, Rule.Plain name := by decide +kernel
  have separated : Rule.Separated names [] sheet := by decide +kernel
  have final : collapse (deleting (Rule.Covered names sheet) sheet) =
      "p{}\n\n.c\x7b\n.a\x7b".toList := by decide +kernel
  refine ⟨⟨loaded, plain, separated⟩, ?_⟩
  rw [((balanced_text rfl loaded plain separated).1 {} rfl).1, final]

end Run

end RulePruner
