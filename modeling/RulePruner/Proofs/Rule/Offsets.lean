import RulePruner.Proofs.Block.Bytes
import RulePruner.Proofs.Cutting.Append
import RulePruner.Proofs.Cutting.Slices
import RulePruner.Proofs.Removal
import RulePruner.Proofs.Rule.Agreement

/-!
# Searching by byte offsets

`Rule.Scan` looks for the rules of a class by byte offsets, with every offset and every subtraction
checked. It goes on right behind a rule that it finds, and one byte behind a name without a block.
Its offsets never slip, for they are where characters of the stylesheet start, and it ends with the
spans of the balanced strategy, for what it has yet to find are the rules behind its offset
(`Rule.Scan.Sound`). The main statement is `Rule.scan_without_slip`.
-/

namespace RulePruner

namespace Rule

open Text Block Cutting

variable {strategy : Strategy} {name css : Text}

theorem length?_eq_none_of_not_front {t : Text}
    (absent : ¬ '.' :: name <+: t) : length? strategy name t = none := by
  rw [length?_eq_none_iff]
  rintro rule rest rfl ⟨head, block, rfl, ⟨blanks, rfl, -⟩, -⟩
  exact absent ⟨blanks ++ block ++ rest, by simp⟩

/-- The text up to the next place of the name is kept. -/
theorem spansFrom_cut_append {kept u : Text} (offset : Nat)
    (absent : ∀ front rest, kept = front ++ rest → rest ≠ [] → ¬ '.' :: name <+: rest ++ u) :
    spansFrom offset (cut strategy name (kept ++ u)).pieces =
      spansFrom (offset + byteSize kept) (cut strategy name u).pieces := by
  have skipped : cut strategy name (kept ++ u) = keepAll kept (cut strategy name u) :=
    of_append_of_none fun front rest split more =>
      length?_eq_none_of_not_front (absent front rest split more)
  rw [skipped, spansFrom_keepAll]

/-- The state of a search: the byte offset from which it goes on, and the spans found so far. -/
structure Scan where
  pos : Nat
  found : List Span
  deriving DecidableEq, Repr

namespace Scan

/-- Where the rule ends whose dot stands at the byte offset `start`, if its block is closed. -/
def stop? (name css : Text) (start : Nat) : Except Slip (Option Nat) := do
  let behindName := start + byteSize ('.' :: name)
  let afterName ← behind behindName css
  let body := afterName.dropWhile isBlank
  let blanks ← Slip.subtract (byteSize afterName) (byteSize body)
  if body.head? = some '{' then
    (partner? (behindName + blanks) css).map fun close => close.map (· + 1)
  else .ok none

/-- The state after the place `start` of the name, where a rule ends at `stop` or no rule starts. -/
def advance (scan : Scan) (start : Nat) (stop : Option Nat) : Scan :=
  match stop with
  | some stop => ⟨stop, scan.found ++ [⟨start, stop⟩]⟩
  | none => ⟨start + 1, scan.found⟩

/-- One round of a search, which is over where the name is not found any more. -/
def step (name css : Text) (scan : Scan) : Except Slip (Option Scan) := do
  let rest ← behind scan.pos css
  match find? (encode ('.' :: name)) (encode rest) with
  | none => .ok none
  | some offset =>
    let start := scan.pos + offset
    let stop ← stop? name css start
    .ok (some (scan.advance start stop))

/-- The states that a search from the start of a stylesheet gets to. -/
inductive Reaches (name css : Text) : Scan → Prop where
  | start : Reaches name css ⟨0, []⟩
  | next {scan later : Scan} : Reaches name css scan → step name css scan = .ok (some later) →
      Reaches name css later

/-- A state is sound if its offset is where a character starts or the stylesheet ends, and the spans
of the balanced strategy are those found so far and those of the text behind the offset. -/
def Sound (name css : Text) (scan : Scan) : Prop :=
  ∃ front rest, css = front ++ rest ∧ scan.pos = byteSize front ∧
    (cut .balanced name css).spans =
      scan.found ++ spansFrom (byteSize front) (cut .balanced name rest).pieces

variable {scan : Scan}

theorem stop?_append (front after : Text) :
    stop? name (front ++ ('.' :: name ++ after)) (byteSize front) =
      if (after.dropWhile isBlank).head? = some '{' then
        (partner? (byteSize (front ++ '.' :: name ++ after.takeWhile isBlank))
          (front ++ '.' :: name ++ after.takeWhile isBlank ++ after.dropWhile isBlank)).map
            fun close => close.map (· + 1)
      else .ok none := by
  have parts := List.takeWhile_append_dropWhile (p := isBlank) (l := after)
  have whole : front ++ '.' :: name ++ after.takeWhile isBlank ++ after.dropWhile isBlank =
      front ++ ('.' :: name ++ after) := by
    rw [List.append_assoc, parts, List.append_assoc]
  have divided := behind_append (front ++ '.' :: name) after
  rw [List.append_assoc, byteSize_append] at divided
  have size := congrArg byteSize parts
  rw [byteSize_append] at size
  have blanks : Slip.subtract (byteSize after) (byteSize (after.dropWhile isBlank)) =
      .ok (byteSize (after.takeWhile isBlank)) := by
    rw [Slip.subtract, if_pos (by omega), ← size, Nat.add_sub_cancel]
  simp only [stop?, divided, blanks, bind, Except.bind, whole, byteSize_append]

/-- The search gets to the end of a rule. -/
theorem stop?_of_isRule {rule : Text} (isRule : IsRule .balanced name rule) (front rest : Text) :
    stop? name (front ++ (rule ++ rest)) (byteSize front) =
      .ok (some (byteSize (front ++ rule))) := by
  obtain ⟨head, block, rfl, ⟨blanks, rfl, blank⟩, isBlock⟩ := isRule
  obtain ⟨body, opens⟩ := IsBlock.eq_cons isBlock
  have inner : (blanks ++ (block ++ rest)).takeWhile isBlank = blanks := by
    rw [opens, List.cons_append, takeWhile_isBlank_append blank]
  have outer : (blanks ++ (block ++ rest)).dropWhile isBlank = block ++ rest := by
    rw [List.dropWhile_append_of_pos blank, opens, List.cons_append,
      List.dropWhile_cons_of_neg (by decide)]
  have brace : (block ++ rest).head? = some '{' := by rw [opens]; rfl
  obtain ⟨close, found, last⟩ :=
    @partner?_of_isBlock (front ++ '.' :: name ++ blanks) block isBlock rest
  have stopped := @stop?_append name front (blanks ++ (block ++ rest))
  rw [inner, outer, if_pos brace, found] at stopped
  simp only [List.append_assoc, Except.map, Option.map_some, last] at stopped ⊢
  exact stopped

/-- The search finds no end where no rule starts. -/
theorem stop?_of_none {after : Text}
    (missing : length? .balanced name ('.' :: name ++ after) = none) (front : Text) :
    stop? name (front ++ ('.' :: name ++ after)) (byteSize front) = .ok none := by
  rw [stop?_append]
  split
  · rename_i opens
    obtain ⟨body, behindBlanks⟩ := List.head?_eq_some_iff.mp opens
    have parts := List.takeWhile_append_dropWhile (p := isBlank) (l := after)
    rw [behindBlanks] at parts ⊢
    rw [partner?_of_not_isBlock]
    · rfl
    · intro block rest split isBlock
      have isRule : IsRule .balanced name ('.' :: name ++ after.takeWhile isBlank ++ block) :=
        ⟨_, block, rfl, ⟨_, rfl, fun c => List.mem_takeWhile_imp⟩, isBlock⟩
      refine length?_eq_none_iff.mp missing _ rest ?_ isRule
      rw [List.append_assoc, ← split, List.append_assoc, parts]
  · rfl

theorem Sound.start (name css : Text) : Sound name css ⟨0, []⟩ := ⟨[], css, rfl, rfl, rfl⟩

theorem Sound.pos_le (sound : Sound name css scan) : scan.pos ≤ byteSize css := by
  obtain ⟨front, rest, rfl, pos, -⟩ := sound
  rw [pos, byteSize_append]
  exact Nat.le_add_right _ _

/-- A sound state has found all, or its round goes to the next place of the name. -/
theorem Sound.exists_place (sound : Sound name css scan) :
    (step name css scan = .ok none ∧ (cut .balanced name css).spans = scan.found) ∨
      ∃ front after, css = front ++ ('.' :: name ++ after) ∧ scan.pos ≤ byteSize front ∧
        (cut .balanced name css).spans = scan.found ++
          spansFrom (byteSize front) (cut .balanced name ('.' :: name ++ after)).pieces ∧
        step name css scan = (stop? name css (byteSize front)).map fun stop =>
          some (scan.advance (byteSize front) stop) := by
  obtain ⟨front, rest, rfl, pos, spans⟩ := sound
  have divided := behind_append front rest
  cases search : find? (encode ('.' :: name)) (encode rest) with
  | none =>
    left
    have absent := @not_prefix_of_find?_eq_none name rest search
    have nothingLeft := @spansFrom_cut_append .balanced name rest [] (byteSize front)
      fun before behind split _ => by simpa using absent split
    have empty : cut .balanced name [] = ⟨[], []⟩ := Cutting.of_nil _
    rw [List.append_nil, empty] at nothingLeft
    constructor
    · simp only [Scan.step, pos, divided, search, bind, Except.bind]
    · rw [spans, nothingLeft]
      exact List.append_nil _
  | some offset =>
    right
    obtain ⟨kept, after, rfl, rfl, first⟩ := exists_of_find?_eq_some search
    rw [spansFrom_cut_append (byteSize front) first, ← byteSize_append] at spans
    refine ⟨front ++ kept, after, (List.append_assoc _ _ _).symm, ?_, spans, ?_⟩
    · rw [pos, byteSize_append]
      exact Nat.le_add_right _ _
    · simp only [Scan.step, pos, divided, search, bind, Except.bind, ← byteSize_append]
      cases stop? name (front ++ (kept ++ ('.' :: name ++ after))) (byteSize (front ++ kept)) <;>
        rfl

/-- A round from a sound state slips nowhere and moves on to a sound state, if any span is left. -/
theorem Sound.step (sound : Sound name css scan) :
    ∃ next, step name css scan = .ok next ∧
      (next = none → (cut .balanced name css).spans = scan.found) ∧
      ∀ later ∈ next, Sound name css later ∧ scan.pos < later.pos := by
  rcases sound.exists_place with ⟨ended, all⟩ | ⟨front, after, rfl, ahead, spans, stepped⟩
  · exact ⟨none, ended, fun _ => all, by simp⟩
  · cases found : length? .balanced name ('.' :: name ++ after) with
    | some n =>
      obtain ⟨rule, behind, split, -, isRule⟩ := length?_eq_some_iff.mp found
      rw [split] at spans stepped ⊢
      rw [isRule.cut_append, spansFrom_cut, ← byteSize_append] at spans
      rw [stop?_of_isRule isRule front behind] at stepped
      refine ⟨_, stepped, by simp, fun later moved => ?_⟩
      obtain rfl := Option.some.inj moved
      refine ⟨⟨front ++ rule, behind, (List.append_assoc _ _ _).symm, rfl, ?_⟩, ?_⟩
      · rw [spans, List.append_cons]
        rfl
      · have := length_le_byteSize rule
        have := isRule.length_ge
        simp only [advance, byteSize_append]
        omega
    | none =>
      have missed : cut .balanced name ('.' :: name ++ after) =
          keep '.' (cut .balanced name (name ++ after)) := cut_cons_of_none found
      have size : byteSize (front ++ ['.']) = byteSize front + 1 := byteSize_append front ['.']
      rw [missed, spansFrom_keep] at spans
      rw [stop?_of_none found front] at stepped
      refine ⟨_, stepped, by simp, fun later moved => ?_⟩
      obtain rfl := Option.some.inj moved
      refine ⟨⟨front ++ ['.'], name ++ after, by simp, size.symm, ?_⟩, Nat.lt_succ_of_le ahead⟩
      rw [spans, size]
      rfl

/-- Every state that a search gets to is sound. -/
theorem Reaches.sound (reaches : Reaches name css scan) : Sound name css scan := by
  induction reaches with
  | start => exact Sound.start name css
  | next _ stepped ih =>
    obtain ⟨next, moved, -, later⟩ := ih.step
    obtain rfl := Except.ok.inj (stepped.symm.trans moved)
    exact (later _ rfl).1

/-- A search gets to its end, for the offset of a state is at most the size of the stylesheet and
that of the next one is greater. -/
theorem Reaches.exists_last (reaches : Reaches name css scan) :
    ∃ last, Reaches name css last ∧ step name css last = .ok none := by
  induction left : byteSize css - scan.pos using Nat.strongRecOn generalizing scan with
  | ind left ih =>
    obtain ⟨next, moved, -, onward⟩ := reaches.sound.step
    cases next with
    | none => exact ⟨scan, reaches, moved⟩
    | some later =>
      obtain ⟨sound, forward⟩ := onward later rfl
      have := sound.pos_le
      exact ih (byteSize css - later.pos) (by omega) (reaches.next moved) rfl

end Scan

/-- In no round of a search does an offset slip, are braces followed from where none opens, or is a
count taken below zero, and each round moves on, but never behind the end of the stylesheet. The
search gets to its end, with the spans of the balanced strategy. Copying the text around the spans
of either strategy slips nowhere either, and gives what a removal leaves. -/
theorem scan_without_slip (name css : Text) :
    (∀ scan, Scan.Reaches name css scan → ∃ next, Scan.step name css scan = .ok next ∧
      ∀ later ∈ next, scan.pos < later.pos ∧ later.pos ≤ byteSize css) ∧
    (∃ last, Scan.Reaches name css last ∧ Scan.step name css last = .ok none ∧
      spans .balanced name css = .ok last.found) ∧
    ∀ strategy found, spans strategy name css = .ok found →
      ∃ removal, remove strategy name css = .ok removal ∧
        copyAround css found = .ok (Removal.left css removal) := by
  refine ⟨fun scan reaches => ?_, ?_, fun strategy found searched => ?_⟩
  · obtain ⟨next, moved, -, onward⟩ := reaches.sound.step
    refine ⟨next, moved, fun later member => ?_⟩
    obtain ⟨sound, forward⟩ := onward later member
    exact ⟨forward, sound.pos_le⟩
  · obtain ⟨last, reaches, ended⟩ := (@Scan.Reaches.start name css).exists_last
    obtain ⟨next, moved, all, -⟩ := reaches.sound.step
    obtain rfl := Except.ok.inj (ended.symm.trans moved)
    exact ⟨last, reaches, ended, by rw [spans_of_supports rfl, all rfl]⟩
  · obtain ⟨supported, rfl⟩ := spans_eq_ok_iff.mp searched
    have copied := copyAround_spans (cut strategy name css)
    rw [text_cut, remaining_cut, ← left_cut] at copied
    exact ⟨_, remove_of_supports supported css, copied⟩

/-- A search that starts again inside a name without a block, between characters of two and three
bytes, and in front of a block that is never closed. -/
theorem scan_without_slip_of_restart :
    let name := "é".toList
    let css := "→.é.é {ü}.é\x7b".toList
    Scan.Reaches name css ⟨4, []⟩ ∧
      (∃ later, Scan.step name css ⟨4, []⟩ = .ok (some later) ∧ 4 < later.pos ∧
        later.pos ≤ byteSize css) ∧
      (∃ last, Scan.Reaches name css last ∧ Scan.step name css last = .ok none ∧
        last.found = [⟨6, 14⟩]) ∧
      ∃ removal, remove .fast name css = .ok removal ∧
        copyAround css [⟨6, 14⟩] = .ok (Removal.left css removal) := by
  intro name css
  have restart : Scan.step name css ⟨0, []⟩ = .ok (some ⟨4, []⟩) := by decide +kernel
  have onward : Scan.step name css ⟨4, []⟩ = .ok (some ⟨14, [⟨6, 14⟩]⟩) := by decide +kernel
  have balanced : spans .balanced name css = .ok [⟨6, 14⟩] :=
    (spans_of_supports rfl css).trans (congrArg Except.ok (by decide +kernel))
  have fast : spans .fast name css = .ok [⟨6, 14⟩] :=
    (spans_of_supports (by decide) css).trans (congrArg Except.ok (by decide +kernel))
  have reaches : Scan.Reaches name css ⟨4, []⟩ := .next .start restart
  obtain ⟨rounds, ending, copies⟩ := scan_without_slip name css
  refine ⟨reaches, ?_, ?_, copies .fast _ fast⟩
  · obtain ⟨next, moved, bounds⟩ := rounds ⟨4, []⟩ reaches
    obtain rfl := Except.ok.inj (onward.symm.trans moved)
    exact ⟨_, moved, bounds _ rfl⟩
  · obtain ⟨last, reached, ends, searched⟩ := ending
    exact ⟨last, reached, ends, (Except.ok.inj (balanced.symm.trans searched)).symm⟩

end Rule

end RulePruner
