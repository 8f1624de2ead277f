import RulePruner.Proofs.Cutting

/-!
# Leftmost hits

A search from left to right takes the first hit, goes on at the end of it, and stops where no hit is
left. `Leftmost` says so of a list of spans, without a search: there is at most one such list
(`Leftmost.unique`), its spans are in order and do not overlap (`Leftmost.pairwise`), and every hit
starts inside one of them (`Leftmost.exists_covering`). The main statement is
`Cutting.leftmost_spans`: the spans of `Cutting.of` are the leftmost hits of its recogniser.
-/

namespace RulePruner

/-- The hits that a search takes which starts at a byte offset. That `Hit start stop` holds says
that a hit takes up the bytes from `start` to `stop`. -/
inductive Leftmost (Hit : Nat → Nat → Prop) : Nat → List Span → Prop where
  /-- No hit starts at the offset or behind it. -/
  | done {offset : Nat} : (∀ start stop, offset ≤ start → ¬ Hit start stop) →
      Leftmost Hit offset []
  /-- The first hit is taken, and the search goes on at its end. -/
  | next {offset : Nat} {span : Span} {spans : List Span} : offset ≤ span.start →
      Hit span.start span.stop →
      (∀ start stop, offset ≤ start → Hit start stop → span.start ≤ start) →
      Leftmost Hit span.stop spans → Leftmost Hit offset (span :: spans)

namespace Leftmost

variable {Hit : Nat → Nat → Prop} {offset : Nat} {spans : List Span}

/-- A search may start earlier if no hit starts in between. -/
theorem of_later {earlier : Nat} (later : earlier ≤ offset)
    (bare : ∀ start stop, earlier ≤ start → Hit start stop → offset ≤ start)
    (leftmost : Leftmost Hit offset spans) : Leftmost Hit earlier spans := by
  cases leftmost with
  | done missing =>
    refine .done fun start stop behind hit => ?_
    exact missing start stop (bare start stop behind hit) hit
  | next behind hit first rest =>
    refine .next (Nat.le_trans later behind) hit (fun start stop behind hit => ?_) rest
    exact first start stop (bare start stop behind hit) hit

/-- Where no two hits start at one place, a search takes one list of hits only. -/
theorem unique {spans' : List Span}
    (single : ∀ start stop stop', Hit start stop → Hit start stop' → stop = stop')
    (leftmost : Leftmost Hit offset spans) (leftmost' : Leftmost Hit offset spans') :
    spans = spans' := by
  induction leftmost generalizing spans' with
  | done missing =>
    cases leftmost' with
    | done => rfl
    | next behind hit => exact absurd hit (missing _ _ behind)
  | @next offset span spans behind hit first _ ih =>
    cases leftmost' with
    | done missing => exact absurd hit (missing _ _ behind)
    | @next _ span' spans' behind' hit' first' rest' =>
      obtain ⟨start, stop⟩ := span
      obtain ⟨start', stop'⟩ := span'
      obtain rfl : start = start' :=
        Nat.le_antisymm (first _ _ behind' hit') (first' _ _ behind hit)
      obtain rfl := single _ _ _ hit hit'
      rw [ih rest']

theorem le_start {span : Span} (forward : ∀ start stop, Hit start stop → start ≤ stop)
    (leftmost : Leftmost Hit offset spans) (member : span ∈ spans) : offset ≤ span.start := by
  induction leftmost with
  | done => simp at member
  | next behind hit _ _ ih =>
    rcases List.mem_cons.mp member with rfl | member
    · exact behind
    · exact Nat.le_trans behind (Nat.le_trans (forward _ _ hit) (ih member))

theorem pairwise (forward : ∀ start stop, Hit start stop → start ≤ stop)
    (leftmost : Leftmost Hit offset spans) :
    spans.Pairwise fun first second => first.stop ≤ second.start := by
  induction leftmost with
  | done => exact List.Pairwise.nil
  | next _ _ _ rest ih =>
    exact List.pairwise_cons.mpr ⟨fun span member => rest.le_start forward member, ih⟩

/-- A hit that the search does not take starts inside one that it takes. -/
theorem exists_covering {start stop : Nat} (leftmost : Leftmost Hit offset spans)
    (behind : offset ≤ start) (hit : Hit start stop) :
    ∃ span ∈ spans, span.start ≤ start ∧ start < span.stop := by
  induction leftmost with
  | done missing => exact absurd hit (missing start stop behind)
  | @next _ span _ _ _ first _ ih =>
    by_cases inside : start < span.stop
    · exact ⟨span, by simp, first start stop behind hit, inside⟩
    · obtain ⟨span', member, covering⟩ := ih (by omega)
      exact ⟨span', List.mem_cons_of_mem _ member, covering⟩

end Leftmost

namespace Text

/-- A text that `Accepted` holds of takes up the bytes of `css` from `start` to `stop`. -/
def Hit (Accepted : Text → Prop) (css : Text) (start stop : Nat) : Prop :=
  ∃ before inside after, css = before ++ inside ++ after ∧ Accepted inside ∧
    start = byteSize before ∧ stop = byteSize (before ++ inside)

variable {Accepted : Text → Prop} {start stop : Nat}

theorem Hit.forward {css : Text} (hit : Hit Accepted css start stop) : start ≤ stop := by
  obtain ⟨before, inside, after, -, -, rfl, rfl⟩ := hit
  rw [byteSize_append]
  exact Nat.le_add_right _ _

/-- A hit that starts behind the front of a text stands in the rest of it. -/
theorem Hit.exists_behind {front rest : Text} (hit : Hit Accepted (front ++ rest) start stop)
    (behind : byteSize front ≤ start) :
    ∃ between inside after, rest = between ++ (inside ++ after) ∧ Accepted inside ∧
      start = byteSize front + byteSize between := by
  obtain ⟨before, inside, after, split, accepted, rfl, -⟩ := hit
  rw [List.append_assoc] at split
  obtain ⟨between, rfl⟩ := prefix_of_byteSize_le split behind
  rw [List.append_assoc] at split
  exact ⟨between, inside, after, List.append_cancel_left split, accepted, byteSize_append _ _⟩

end Text

namespace Cutting

open Text

variable {length? : Text → Option Nat} {Accepted : Text → Prop}

theorem spansFrom_keep (offset : Nat) (c : Char) (cutting : Cutting) :
    spansFrom offset (keep c cutting).pieces =
      spansFrom (offset + c.utf8Size) cutting.pieces := by
  obtain ⟨pieces, rest⟩ := cutting
  cases pieces with
  | nil => rfl
  | cons piece pieces => simp [keep, spansFrom, Nat.add_assoc]

/-- A recogniser tells the length of the accepted text that a text starts with. -/
def Recognises (length? : Text → Option Nat) (Accepted : Text → Prop) : Prop :=
  ∀ t n, length? t = some n ↔
    ∃ inside after, t = inside ++ after ∧ n = inside.length ∧ Accepted inside

theorem Recognises.found (recognises : Recognises length? Accepted) {inside : Text}
    (accepted : Accepted inside) (after : Text) :
    length? (inside ++ after) = some inside.length :=
  (recognises _ _).mpr ⟨inside, after, rfl, rfl, accepted⟩

theorem Recognises.accepted (recognises : Recognises length? Accepted) {inside after : Text}
    (found : length? (inside ++ after) = some inside.length) : Accepted inside := by
  obtain ⟨inside', after', same, size, accepted⟩ := (recognises _ _).mp found
  rwa [(List.append_inj same size).1]

/-- A recogniser gives one length only, so no two hits start at one place. -/
theorem Recognises.single (recognises : Recognises length? Accepted) {css : Text} :
    ∀ start stop stop', Hit Accepted css start stop → Hit Accepted css start stop' →
      stop = stop' := by
  rintro _ _ _ ⟨before, inside, after, split, accepted, rfl, rfl⟩
    ⟨before', inside', after', split', accepted', start, rfl⟩
  rw [split, List.append_assoc, List.append_assoc] at split'
  obtain rfl := eq_of_byteSize_eq split' start
  have same := List.append_cancel_left split'
  have size := recognises.found accepted after
  rw [same, recognises.found accepted' after', Option.some.injEq] at size
  rw [(List.append_inj same size.symm).1]

/-- The pieces that are cut out of the rest of a text are the leftmost hits behind its front. -/
theorem leftmost_spansFrom (measures : Measures length?) (recognises : Recognises length? Accepted)
    (t : Text) : ∀ front, Leftmost (Hit Accepted (front ++ t)) (byteSize front)
      (spansFrom (byteSize front) (of length? t).pieces) := by
  refine of_split_induction measures (motive := fun t cutting => ∀ front,
    Leftmost (Hit Accepted (front ++ t)) (byteSize front)
      (spansFrom (byteSize front) cutting.pieces)) ?_ ?_ ?_ t
  · intro front
    refine .done fun start stop behind hit => ?_
    obtain ⟨between, inside, after, split, accepted, -⟩ := hit.exists_behind behind
    obtain ⟨rfl, rfl⟩ := List.append_eq_nil_iff.mp (List.append_eq_nil_iff.mp split.symm).2
    exact absurd (measures _ _ (recognises.found accepted [])).1 (Nat.lt_irrefl 0)
  · intro c rest missing ih front
    have later := ih (front ++ [c])
    simp only [byteSize_append, byteSize_cons, byteSize_nil, Nat.add_zero, List.append_assoc,
      List.singleton_append] at later
    rw [spansFrom_keep]
    refine later.of_later (Nat.le_add_right _ _) fun start stop behind hit => ?_
    obtain ⟨between, inside, after, split, accepted, rfl⟩ := hit.exists_behind behind
    cases between with
    | nil =>
      rw [List.nil_append] at split
      rw [split, recognises.found accepted after] at missing
      simp at missing
    | cons d between =>
      obtain ⟨rfl, -⟩ := List.cons_eq_cons.mp split
      rw [byteSize_cons]
      omega
  · intro block rest found ih front
    have later := ih (front ++ block)
    rw [byteSize_append, List.append_assoc] at later
    refine .next (Nat.le_refl _) ?_ (fun start stop behind _ => behind) later
    exact ⟨front, block, rest, (List.append_assoc _ _ _).symm, recognises.accepted found, by simp,
      by simp⟩

/-- The spans of a cutting are the leftmost hits of its recogniser, and no other list is. -/
theorem leftmost_spans (measures : Measures length?) (recognises : Recognises length? Accepted)
    (t : Text) (found : List Span) :
    Leftmost (Hit Accepted t) 0 found ↔ found = (of length? t).spans := by
  have leftmost : Leftmost (Hit Accepted t) 0 (of length? t).spans :=
    leftmost_spansFrom measures recognises t []
  constructor
  · intro leftmost'
    exact leftmost'.unique recognises.single leftmost
  · rintro rfl
    exact leftmost

end Cutting

end RulePruner
