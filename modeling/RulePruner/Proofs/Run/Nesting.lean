import Mathlib.Order.Monotone.Basic
import RulePruner.Proofs.Rule.Newline
import RulePruner.Proofs.Run.Ending

/-!
# The nesting of what a run keeps

Rules of classes without braces in their names and the newlines over the cap are taken out of a
stylesheet without a trace in the depth of what stays: every character that a run keeps has as many
braces open before it as it had in the stylesheet that was read. The main statement is
`Run.exists_keepsDepth`.
-/

namespace RulePruner

namespace Text

/-- The characters of `part` are characters of `whole` in the same order, each at its `place`, and
each has as many braces open before it in `part` as in `whole`. So have the ends of both texts. -/
structure KeepsDepth (part whole : Text) : Prop where
  places : ∃ place : Nat → Nat, StrictMono place ∧ ∀ i c, part[i]? = some c →
    whole[place i]? = some c ∧ depth (whole.take (place i)) = depth (part.take i)
  total : depth part = depth whole

/-- The places that belong to the same texts with one character more in front. -/
def shifted (place : Nat → Nat) : Nat → Nat
  | 0 => 0
  | i + 1 => place i + 1

theorem strictMono_shifted {place : Nat → Nat} (mono : StrictMono place) :
    StrictMono (shifted place) := by
  refine strictMono_nat_of_lt_succ fun i => ?_
  cases i with
  | zero => exact Nat.succ_pos _
  | succ i => exact Nat.succ_lt_succ (mono (Nat.lt_succ_self i))

namespace KeepsDepth

variable {part middle whole : Text}

theorem refl (t : Text) : KeepsDepth t t :=
  ⟨⟨id, strictMono_id, fun _ _ kept => ⟨kept, rfl⟩⟩, rfl⟩

theorem trans (first : KeepsDepth part middle) (second : KeepsDepth middle whole) :
    KeepsDepth part whole := by
  obtain ⟨⟨place, mono, kept⟩, total⟩ := first
  obtain ⟨⟨place', mono', kept'⟩, total'⟩ := second
  refine ⟨⟨place' ∘ place, mono'.comp mono, ?_⟩, total.trans total'⟩
  intro i c char
  obtain ⟨here, level⟩ := kept i c char
  obtain ⟨there, level'⟩ := kept' (place i) c here
  exact ⟨there, level'.trans level⟩

/-- The same character in front of both texts is kept. -/
theorem cons (kept : KeepsDepth part whole) (c : Char) : KeepsDepth (c :: part) (c :: whole) := by
  obtain ⟨⟨place, mono, kept⟩, total⟩ := kept
  refine ⟨⟨shifted place, strictMono_shifted mono, ?_⟩, by rw [depth_cons, depth_cons, total]⟩
  intro i d char
  cases i with
  | zero => exact ⟨char, rfl⟩
  | succ i =>
    obtain ⟨here, level⟩ := kept i d (by simpa using char)
    refine ⟨by simpa [shifted] using here, ?_⟩
    simp only [shifted, List.take_succ_cons, depth_cons, level]

/-- A stretch in front of the whole that closes what it opens can be left out. -/
theorem skip (kept : KeepsDepth part whole) {stretch : Text} (neutral : depth stretch = 0) :
    KeepsDepth part (stretch ++ whole) := by
  obtain ⟨⟨place, mono, kept⟩, total⟩ := kept
  refine ⟨⟨fun i => stretch.length + place i, fun i j earlier => ?_, ?_⟩, ?_⟩
  · exact Nat.add_lt_add_left (mono earlier) _
  · intro i c char
    obtain ⟨here, level⟩ := kept i c char
    constructor
    · rw [List.getElem?_append_right (Nat.le_add_right _ _), Nat.add_sub_cancel_left, here]
    · rw [List.take_length_add_append, depth_append, neutral, Int.zero_add, level]
  · rw [depth_append, neutral, Int.zero_add, total]

/-- What is kept of a well-nested text is well nested. -/
theorem wellNested (kept : KeepsDepth part whole) (nested : WellNested whole) : WellNested part where
  balanced := kept.total.trans nested.balanced
  sane := by
    intro p front
    obtain ⟨rest, rfl⟩ := front
    cases rest with
    | nil =>
      rw [List.append_nil] at kept
      exact Int.le_of_eq (kept.total.trans nested.balanced).symm
    | cons c rest =>
      obtain ⟨place, -, kept⟩ := kept.places
      obtain ⟨-, level⟩ := kept p.length c (by simp)
      rw [List.take_left] at level
      rw [← level]
      exact nested.sane _ (List.take_prefix _ _)

end KeepsDepth

theorem keepsDepth_capNewlines (room : Nat) (t : Text) : KeepsDepth (capNewlines room t) t := by
  induction t generalizing room with
  | nil => exact .refl []
  | cons c t ih =>
    by_cases newline : c = '\n'
    · subst newline
      cases room with
      | zero =>
        have neutral : depth ['\n'] = 0 := by decide
        exact (ih 0).skip neutral
      | succ room =>
        rw [capNewlines_succ_newline]
        exact (ih room).cons '\n'
    · rw [capNewlines_other room t newline]
      exact (ih 2).cons c

end Text

namespace Rule

open Text

variable {strategy : Strategy} {names : List Text}

theorem keepsDepth_without (free : ∀ name ∈ names, BraceFree name) (css : Text) :
    KeepsDepth (without strategy names css) css := by
  refine without_induction (motive := fun t left => KeepsDepth left t) (.refl []) ?_ ?_ css
  · intro c t _ kept
    exact kept.cons c
  · intro name member rule rest isRule kept
    exact kept.skip (isRule.wellNested (free name member)).balanced

theorem keepsDepth_withoutInTurn (free : ∀ name ∈ names, BraceFree name) (css : Text) :
    KeepsDepth (withoutInTurn strategy names css) css := by
  induction names generalizing css with
  | nil => exact .refl css
  | cons name names ih =>
    obtain ⟨freeFirst, freeLater⟩ := List.forall_mem_cons.mp free
    exact (ih freeLater _).trans (keepsDepth_without (by simpa using freeFirst) css)

end Rule

namespace Run

open Text

variable {options : Options} {fileLimit : Option Nat} {sink : Sink} {tree : FileTree}
  {names : List Text} {css : Text} {outcome : Outcome}

/-- Where no class name holds a brace, the text that a successful run gets to keeps the depth of
every character of the stylesheet that it keeps, and it is well nested if the stylesheet is. The
outcome gives its size, and a run that is no dry run leaves it in the stylesheet. -/
theorem exists_keepsDepth (loaded : load options tree = .ok (names, css))
    (free : ∀ name ∈ names, BraceFree name)
    (succeeds : (Run.perform options fileLimit sink tree).result = .ok outcome) :
    ∃ final, text? options tree sink = some final ∧ final.length = outcome.charsAfter ∧
      KeepsDepth final css ∧ (WellNested css → WellNested final) ∧
      (options.dryRun = false →
        (Run.perform options fileLimit sink tree).tree.read options.stylesheet =
          .ok (encode final)) := by
  obtain ⟨state, steps, rfl, reached, -⟩ := exists_steps_of_outcome loaded succeeds
  have kept : KeepsDepth (collapse state.css) css := by
    rw [steps.css_eq.1]
    exact (keepsDepth_capNewlines 2 _).trans (Rule.keepsDepth_withoutInTurn free css)
  exact ⟨_, reached, rfl, kept, kept.wellNested, fun wet => read_of_text? wet succeeds reached⟩

/-- Under a stray closing brace and beside an unclosed block, a rule and a class inside another are
gone, and the depths of the rest stay. -/
theorem exists_keepsDepth_of_stray_braces :
    let sheet := "\x7d.a{}\n\n\n\n.b{ .a{} }\n.c\x7b.a{}\n".toList
    let tree := workspace "a".toList sheet
    load { strategy := .fast } tree = .ok (["a".toList], sheet) ∧
      (∀ name ∈ ["a".toList], BraceFree name) ∧
      (∃ outcome, (Run.perform { strategy := .fast } none {} tree).result = .ok outcome) ∧
      KeepsDepth "\x7d\n\n.b{  }\n.c\x7b\n".toList sheet := by
  intro sheet tree
  have loaded : load { strategy := .fast } tree = .ok (["a".toList], sheet) :=
    (load_workspace .fast _ _).trans (congrArg Except.ok (by decide +kernel))
  have free : ∀ name ∈ ["a".toList], BraceFree name := by decide
  obtain ⟨outcome, succeeds⟩ := (exists_result_ok_iff loaded (by decide +kernel)
    (show ({} : Sink).limit = none from rfl)).mpr (unbarred_workspace _ _ sheet)
  obtain ⟨final, reached, -, kept, -⟩ := exists_keepsDepth loaded free succeeds
  have expected : text? { strategy := .fast } tree {} =
      some "\x7d\n\n.b{  }\n.c\x7b\n".toList := by decide +kernel
  obtain rfl := Option.some.inj (reached.symm.trans expected)
  exact ⟨loaded, free, ⟨outcome, succeeds⟩, kept⟩

end Run

end RulePruner
