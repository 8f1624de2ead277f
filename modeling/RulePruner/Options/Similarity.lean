import RulePruner.Text.Basic

/-!
The similarity of two words after Jaro, by which an unknown word is answered with a known one.
Characters agree when they are equal and not too far apart; the similarity is the mean of the
shares of agreeing characters in both words and of the share of those in the same order.
-/

namespace RulePruner.Similarity

/-- How far apart characters that agree may stand. -/
def window (a b : Text) : Nat := max a.length b.length / 2 - 1

/-- Marks the first free character of a word that equals `c` and stands from `low` up to but not
including `high`; the word starts at the given place. -/
def claim (c : Char) (low high place : Nat) : List (Char × Bool) → Option (List (Char × Bool))
  | [] => none
  | (d, taken) :: rest =>
    if low ≤ place ∧ place < high ∧ c = d ∧ taken = false then some ((d, true) :: rest)
    else (claim c low high (place + 1) rest).map ((d, taken) :: ·)

/-- The agreeing characters of two words, in the order of each. -/
def agreeing (a b : Text) : Text × Text :=
  let reach := window a b
  let start : Text × List (Char × Bool) := ([], b.map fun d => (d, false))
  let (mine, marked) := a.zipIdx.foldl (fun state item =>
    match claim item.1 (item.2 - reach) (item.2 + reach + 1) 0 state.2 with
    | some marked => (item.1 :: state.1, marked)
    | none => state) start
  (mine.reverse, (marked.filter Prod.snd).map Prod.fst)

/-- The similarity of two words, from nought to one. -/
def jaro (a b : Text) : Float :=
  if a.isEmpty && b.isEmpty then 1.0
  else
    let (mine, yours) := agreeing a b
    let count := mine.length
    if count = 0 then 0.0
    else
      let displaced := ((mine.zip yours).filter fun pair => pair.1 ≠ pair.2).length / 2
      let total := count.toUInt64.toFloat
      (total / a.length.toUInt64.toFloat + total / b.length.toUInt64.toFloat +
        (count - displaced).toUInt64.toFloat / total) / 3.0

/-- The known word most similar to a given one, the later of two that are equally similar, if it
is similar enough. -/
def best? {α : Type} (word : α → Text) (known : List α) (given : Text) : Option α :=
  let rated := (known.map fun item => (item, jaro given (word item))).filter fun rating =>
    0.7 < rating.2
  (rated.foldl (fun chosen rating =>
    match chosen with
    | some (item, similarity) =>
      if rating.2 < similarity then some (item, similarity) else some rating
    | none => some rating) none).map Prod.fst

end RulePruner.Similarity
