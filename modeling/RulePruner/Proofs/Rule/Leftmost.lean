import RulePruner.Proofs.Cutting.Leftmost
import RulePruner.Proofs.Rule.Agreement

/-!
# The spans are the leftmost rules

With both strategies the spans of a class are the leftmost rules of it. For the balanced strategy a
rule is a closed header: a dot, the class name, blanks, and an opening brace from which on the
braces balance somewhere. The main statement is `Rule.spans_balanced_leftmost`. The class name can
be any text.
-/

namespace RulePruner

namespace Block

open Text

/-- The text from an opening brace up to the first place where the braces counted from there
balance. -/
structure FirstBalance (t : Text) : Prop where
  opens : t.head? = some '{'
  balanced : t.count '{' = t.count '}'
  first : ∀ p, p <+: t → p ≠ [] → p ≠ t → p.count '{' ≠ p.count '}'

theorem depth_eq_zero_iff {t : Text} : depth t = 0 ↔ t.count '{' = t.count '}' := by
  rw [depth]
  omega

/-- Braces that are counted from an opening one do not get below zero before they balance. -/
theorem FirstBalance.depth_pos {t : Text} (balance : FirstBalance t) (p : Text) :
    p <+: t → p ≠ [] → p ≠ t → 0 < depth p := by
  induction p using List.reverseRecOn with
  | nil => exact fun _ proper => absurd rfl proper
  | append_singleton q c ih =>
    intro front _ proper
    by_cases start : q = []
    · subst start
      obtain ⟨rest, split⟩ := front
      have opens := balance.opens
      rw [← split] at opens
      obtain rfl : c = '{' := by simpa using opens
      decide
    · have inside : 0 < depth q := by
        refine ih ((List.prefix_append q [c]).trans front) start ?_
        rintro rfl
        exact absurd front.length_le (by simp)
      have unbalanced := depth_eq_zero_iff.not.mpr (balance.first _ front (by simp) proper)
      have := neg_one_le_weight c
      rw [depth_append, depth_cons, depth_nil] at unbalanced ⊢
      omega

/-- A block ends where the braces balance for the first time. -/
theorem isBlock_none_iff {t : Text} : IsBlock none t ↔ FirstBalance t := by
  constructor
  · intro isBlock
    refine ⟨isBlock.opens, depth_eq_zero_iff.mp isBlock.closed, fun p front start proper => ?_⟩
    have := isBlock.inside p front start proper
    rw [Ne, ← depth_eq_zero_iff]
    omega
  · intro balance
    exact ⟨balance.opens, depth_eq_zero_iff.mpr balance.balanced, balance.depth_pos, by simp⟩

end Block

namespace Rule

open Text Block

variable {strategy : Strategy} {name css : Text}

theorem recognises_length? (strategy : Strategy) (name : Text) :
    Cutting.Recognises (length? strategy name) (IsRule strategy name) := by
  intro t n
  exact length?_eq_some_iff

/-- With both strategies the rules that are cut are the leftmost ones. -/
theorem leftmost_cut (strategy : Strategy) (name css : Text) (found : List Span) :
    Leftmost (Hit (IsRule strategy name) css) 0 found ↔ found = (cut strategy name css).spans :=
  Cutting.leftmost_spans (measures_length? strategy name) (recognises_length? strategy name) css
    found

/-- A closed header at the byte offset `start`: there stand a dot, the class name, blanks, and an
opening brace, and the braces counted from that brace on balance for the first time right before
`stop`. -/
def ClosedHeader (name css : Text) (start stop : Nat) : Prop :=
  ∃ before blanks block after, css = before ++ ('.' :: name ++ blanks ++ block) ++ after ∧
    (∀ c ∈ blanks, isBlank c) ∧ FirstBalance block ∧
    start = byteSize before ∧ stop = byteSize (before ++ ('.' :: name ++ blanks ++ block))

/-- A closed header is a rule for the balanced strategy. -/
theorem closedHeader_eq : ClosedHeader name css = Hit (IsRule .balanced name) css := by
  funext start stop
  apply propext
  constructor
  · intro closed
    obtain ⟨before, blanks, block, after, split, blank, balance, starts, stops⟩ := closed
    exact ⟨before, _, after, split,
      ⟨_, block, rfl, ⟨blanks, rfl, blank⟩, isBlock_none_iff.mpr balance⟩, starts, stops⟩
  · intro hit
    obtain ⟨before, _, after, split, ⟨_, block, rfl, ⟨blanks, rfl, blank⟩, isBlock⟩, starts,
      stops⟩ := hit
    exact ⟨before, blanks, block, after, split, blank, isBlock_none_iff.mp isBlock, starts, stops⟩

/-- The spans of the balanced strategy start with the first closed header of the stylesheet and go
on with the first one at or behind the end of the span before, until there is none; no other list
does. Every closed header starts inside one of them, and they are in order and do not overlap. -/
theorem spans_balanced_leftmost (name css : Text) :
    ∃ found, spans .balanced name css = .ok found ∧
      (∀ list, Leftmost (ClosedHeader name css) 0 list ↔ list = found) ∧
      (∀ start stop, ClosedHeader name css start stop →
        ∃ span ∈ found, span.start ≤ start ∧ start < span.stop) ∧
      found.Pairwise (fun first second => first.stop ≤ second.start) := by
  refine ⟨_, spans_of_supports rfl css, ?_⟩
  rw [closedHeader_eq]
  have leftmost := (leftmost_cut .balanced name css _).mpr rfl
  refine ⟨leftmost_cut .balanced name css, fun start stop hit => ?_, ?_⟩
  · exact leftmost.exists_covering (Nat.zero_le start) hit
  · exact leftmost.pairwise fun start stop hit => hit.forward

end Rule

end RulePruner
