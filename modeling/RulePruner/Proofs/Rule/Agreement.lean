import RulePruner.Proofs.Rule.Exactness
import RulePruner.Proofs.Rule.Without

/-!
# Where the two strategies agree

Both strategies look at the places of a stylesheet from left to right and go on behind the rule that
they find, so they part at the first rule whose block nests too deep for the fast one. The main
statement is `Rule.spans_fast_eq_iff`: they return the same spans exactly if no block that the
balanced strategy finds gets to three open braces. The class name can be any text.
-/

namespace RulePruner

namespace Block

open Text

/-- A text that never gets to three open braces. -/
def Flat (t : Text) : Prop := ∀ p, p <+: t → depth p < 3

/-- A block is one for a search that is bounded at two open braces just if it is flat. -/
theorem isBlock_two_iff {t : Text} : IsBlock (some 2) t ↔ IsBlock none t ∧ Flat t := by
  constructor
  · intro isBlock
    rcases isBlock with ⟨opens, closed, inside, shallow⟩
    refine ⟨⟨opens, closed, inside, by simp⟩, fun p front => ?_⟩
    have low : depth p ≤ (2 : Nat) := shallow 2 rfl p front
    omega
  · rintro ⟨⟨opens, closed, inside, -⟩, flat⟩
    refine ⟨opens, closed, inside, ?_⟩
    rintro limit given p front
    obtain rfl : 2 = limit := by simpa using given
    have low := flat p front
    omega

end Block

namespace Rule

open Text Block

variable {strategy : Strategy} {name css : Text}

/-- A rule splits into a head and a block in one way only. -/
theorem IsHead.unique {deepest deepest' : Option Nat} {head head' block block' : Text}
    (isHead : IsHead name head) (isHead' : IsHead name head') (isBlock : IsBlock deepest block)
    (isBlock' : IsBlock deepest' block') (same : head ++ block = head' ++ block') :
    head = head' ∧ block = block' := by
  obtain ⟨blanks, rfl, blank⟩ := isHead
  obtain ⟨blanks', rfl, blank'⟩ := isHead'
  obtain ⟨body, rfl⟩ := IsBlock.eq_cons isBlock
  obtain ⟨body', rfl⟩ := IsBlock.eq_cons isBlock'
  rw [List.append_assoc, List.append_assoc] at same
  have behind := List.append_cancel_left same
  have alike := congrArg (List.takeWhile isBlank) behind
  rw [takeWhile_isBlank_append blank, takeWhile_isBlank_append blank'] at alike
  subst alike
  exact ⟨rfl, List.append_cancel_left behind⟩

/-- A rule is one for the fast strategy just if its block is flat. -/
theorem isRule_fast_iff_flat {head block : Text} (isHead : IsHead name head)
    (isBlock : IsBlock none block) : IsRule .fast name (head ++ block) ↔ Flat block := by
  constructor
  · intro isRule
    obtain ⟨head', block', same, isHead', isBlock'⟩ := isRule
    obtain ⟨rfl, rfl⟩ := isHead.unique isHead' isBlock isBlock' same
    exact (isBlock_two_iff.mp isBlock').2
  · intro flat
    exact ⟨head, block, rfl, isHead, isBlock_two_iff.mpr ⟨isBlock, flat⟩⟩

/-- The fast strategy cuts a stylesheet like the balanced one just if all that the balanced one cuts
are rules for the fast one. -/
theorem cut_fast_eq_iff :
    cut .fast name css = cut .balanced name css ↔
      ∀ before rule after, (cut .balanced name css).Cuts before rule after →
        IsRule .fast name rule := by
  constructor
  · intro same before rule after cuts
    rw [← same] at cuts
    exact (cuts_isRule cuts).2
  · refine Cutting.of_split_induction (measures_length? .balanced name)
      (motive := fun t cutting => (∀ before rule after, cutting.Cuts before rule after →
        IsRule .fast name rule) → cut .fast name t = cutting) ?_ ?_ ?_ css
    · intro _
      exact Cutting.of_nil _
    · intro c rest missing ih fast
      rw [cut_cons_of_none (length?_fast_eq_none missing), ih]
      intro before rule after cuts
      exact fast (c :: before) rule after (Cutting.cuts_keep_iff.mpr ⟨before, rfl, cuts⟩)
    · intro block rest found ih fast
      have isRule := fast [] block _ (Cutting.cuts_cut_iff.mpr (Or.inl ⟨rfl, rfl, rfl⟩))
      rw [isRule.cut_append, ih]
      intro before rule after cuts
      exact fast (block ++ before) rule after (Cutting.cuts_cut_iff.mpr (Or.inr ⟨before, rfl, cuts⟩))

/-- `block` is the block of a rule of the class that takes up the bytes of `span`. -/
def BlockAt (name css : Text) (span : Span) (block : Text) : Prop :=
  ∃ before head after, css = before ++ (head ++ block) ++ after ∧ IsHead name head ∧
    IsBlock none block ∧ span = ⟨byteSize before, byteSize (before ++ (head ++ block))⟩

theorem spans_of_supports (supported : supports strategy name = true) (css : Text) :
    spans strategy name css = .ok (cut strategy name css).spans := by
  simp [spans, find, supported, Except.map]

/-- A text is told by where it starts and ends in another one. -/
theorem eq_of_span_eq {before before' middle middle' after after' : Text}
    (split : before ++ middle ++ after = before' ++ middle' ++ after')
    (start : byteSize before = byteSize before')
    (stop : byteSize (before ++ middle) = byteSize (before' ++ middle')) :
    before = before' ∧ middle = middle' := by
  have fronts := eq_of_byteSize_eq split stop
  obtain rfl := eq_of_byteSize_eq fronts start
  exact ⟨rfl, List.append_cancel_left fronts⟩

/-- A balanced span holds one rule, which has one block. -/
theorem existsUnique_blockAt {span : Span} (member : span ∈ (cut .balanced name css).spans) :
    ∃! block, BlockAt name css span block := by
  obtain ⟨before, rule, after, cuts, rfl⟩ := Cutting.mem_spans_iff.mp member
  obtain ⟨split, head, block, rfl, isHead, isBlock⟩ := cuts_isRule cuts
  refine ⟨block, ⟨before, head, after, split, isHead, isBlock, rfl⟩, ?_⟩
  rintro block' ⟨before', head', after', split', isHead', isBlock', same⟩
  obtain ⟨start, stop⟩ := Span.mk.inj same
  obtain ⟨-, rules⟩ := eq_of_span_eq (split.symm.trans split') start stop
  exact (isHead.unique isHead' isBlock isBlock' rules).2.symm

/-- The two strategies return the same spans exactly if the block in each balanced span is flat. -/
theorem spans_cut_eq_iff :
    (cut .fast name css).spans = (cut .balanced name css).spans ↔
      ∀ span ∈ (cut .balanced name css).spans, ∀ block, BlockAt name css span block → Flat block := by
  constructor
  · rintro same span member block ⟨before, head, after, split, isHead, isBlock, rfl⟩
    rw [← same] at member
    obtain ⟨before', rule, after', cuts, here⟩ := Cutting.mem_spans_iff.mp member
    obtain ⟨split', isRule⟩ := cuts_isRule cuts
    obtain ⟨start, stop⟩ := Span.mk.inj here
    obtain ⟨-, rfl⟩ := eq_of_span_eq (split.symm.trans split') start stop
    exact (isRule_fast_iff_flat isHead isBlock).mp isRule
  · intro flat
    rw [cut_fast_eq_iff.mpr]
    intro before rule after cuts
    have member := Cutting.mem_spans_iff.mpr ⟨before, rule, after, cuts, rfl⟩
    obtain ⟨split, head, block, rfl, isHead, isBlock⟩ := cuts_isRule cuts
    exact (isRule_fast_iff_flat isHead isBlock).mpr
      (flat _ member block ⟨before, head, after, split, isHead, isBlock, rfl⟩)

/-- A class that the fast strategy can look for has the same spans with both strategies exactly if,
in each span of the balanced one, the block of the rule never gets to three open braces. -/
theorem spans_fast_eq_iff (compiles : Pattern.compiles name = true) (css : Text) :
    ∃ found, spans .balanced name css = .ok found ∧
      (∀ span ∈ found, ∃! block, BlockAt name css span block) ∧
      (spans .fast name css = spans .balanced name css ↔
        ∀ span ∈ found, ∀ block, BlockAt name css span block →
          ∀ p, p <+: block → depth p < 3) := by
  have supported : supports .fast name = true := compiles
  refine ⟨_, spans_of_supports rfl css, fun span => existsUnique_blockAt, ?_⟩
  rw [spans_of_supports supported, spans_of_supports rfl, Except.ok.injEq]
  exact spans_cut_eq_iff

/-- Between two shallow rules stands a deep one, inside which the fast strategy finds another rule.
-/
theorem spans_fast_ne_of_deep_rule :
    let css := ".a{{}}.a {{ .a{} }}.a{}".toList
    Pattern.compiles "a".toList = true ∧
      spans .balanced "a".toList css = .ok [⟨0, 6⟩, ⟨6, 19⟩, ⟨19, 23⟩] ∧
      spans .fast "a".toList css ≠ spans .balanced "a".toList css := by
  intro css
  have compiles : Pattern.compiles "a".toList = true := by decide
  have searched : spans .balanced "a".toList css = .ok [⟨0, 6⟩, ⟨6, 19⟩, ⟨19, 23⟩] :=
    congrArg Except.ok (by decide +kernel)
  obtain ⟨found, searched', unique, agree⟩ := spans_fast_eq_iff compiles css
  obtain rfl := Except.ok.inj (searched.symm.trans searched')
  refine ⟨compiles, searched, fun same => ?_⟩
  have closed : Block.length? none "{{ .a{} }}".toList = some 10 := by decide +kernel
  obtain ⟨block, rest, split, size, isBlock⟩ :=
    (Block.length?_eq_some_iff (by simp)).mp closed
  obtain ⟨rfl, -⟩ := List.append_inj (split.symm.trans (List.append_nil _).symm) size.symm
  have here : BlockAt "a".toList css ⟨6, 19⟩ "{{ .a{} }}".toList :=
    ⟨".a{{}}".toList, ".a ".toList, ".a{}".toList, rfl,
      ⟨[' '], rfl, List.forall_mem_singleton.mpr (by decide)⟩, isBlock, by decide +kernel⟩
  have low := agree.mp same ⟨6, 19⟩ (by simp) _ here "\x7b\x7b .a\x7b".toList (by decide)
  exact absurd low (by decide)

end Rule

end RulePruner
