import RulePruner.Text.Encoding

/-!
# Slices of a text

Where a text is addressed by byte offsets, an offset has to lie within the text and between two of
its characters. `Text.divide`, `Text.behind` and `Text.slice` check that and report a `Slip`
otherwise. A stretch of the text is given exactly if the offsets are where it starts and ends
(`Text.slice_eq_ok_iff`).
-/

namespace RulePruner

/-- What can go wrong where a text is addressed by byte offsets. -/
inductive Slip where
  /-- An offset lies behind the end of the text. -/
  | outside
  /-- An offset lies inside a character. -/
  | insideCharacter
  /-- A range ends before it starts. -/
  | reversed
  /-- More is taken from a number than there is. -/
  | underflow
  /-- Braces are followed from a place where none is opened. -/
  | noBrace
  deriving DecidableEq, Repr

/-- The difference of two offsets, which are no negative numbers. -/
def Slip.subtract (more less : Nat) : Except Slip Nat :=
  if less ≤ more then .ok (more - less) else .error .underflow

namespace Text

/-- The parts of a text before and behind a byte offset. -/
def divide (offset : Nat) : Text → Except Slip (Text × Text)
  | [] => if offset = 0 then .ok ([], []) else .error .outside
  | c :: t =>
    if offset = 0 then .ok ([], c :: t)
    else if c.utf8Size ≤ offset then
      (divide (offset - c.utf8Size) t).map fun parts => (c :: parts.1, parts.2)
    else .error .insideCharacter

/-- The part of a text behind a byte offset. -/
def behind (offset : Nat) (t : Text) : Except Slip Text := (divide offset t).map Prod.snd

/-- The part of a text between two byte offsets. -/
def slice (start stop : Nat) (t : Text) : Except Slip Text :=
  if start ≤ stop then do
    let (front, _) ← divide stop t
    behind start front
  else .error .reversed

variable {offset start stop : Nat} {t u v : Text}

/-- A text can be divided at the bytes of each of its fronts. -/
theorem divide_append (u v : Text) : divide (byteSize u) (u ++ v) = .ok (u, v) := by
  induction u with
  | nil => cases v <;> rfl
  | cons c u ih =>
    have := c.utf8Size_pos
    rw [List.cons_append, divide, byteSize_cons, if_neg (by omega), if_pos (by omega),
      Nat.add_sub_cancel_left, ih]
    rfl

/-- A text is divided only where a character of it ends. -/
theorem eq_append_of_divide (divided : divide offset t = .ok (u, v)) :
    t = u ++ v ∧ offset = byteSize u := by
  induction t generalizing offset u with
  | nil =>
    rw [divide] at divided
    split at divided
    · cases divided
      exact ⟨rfl, by simpa⟩
    · cases divided
  | cons c t ih =>
    rw [divide] at divided
    split at divided
    · cases divided
      exact ⟨rfl, by simpa⟩
    · split at divided
      · rename_i fits
        cases later : divide (offset - c.utf8Size) t with
        | error slip => simp [later, Except.map] at divided
        | ok parts =>
          obtain ⟨front, rest⟩ := parts
          simp only [later, Except.map, Except.ok.injEq, Prod.mk.injEq] at divided
          obtain ⟨rfl, rfl⟩ := divided
          obtain ⟨rfl, size⟩ := ih later
          exact ⟨rfl, by rw [byteSize_cons]; omega⟩
      · cases divided

theorem divide_eq_ok_iff : divide offset t = .ok (u, v) ↔ t = u ++ v ∧ offset = byteSize u := by
  constructor
  · exact eq_append_of_divide
  · rintro ⟨rfl, rfl⟩
    exact divide_append u v

theorem behind_eq_ok_iff : behind offset t = .ok v ↔ ∃ u, t = u ++ v ∧ offset = byteSize u := by
  simp only [← divide_eq_ok_iff, behind]
  cases divide offset t with
  | error slip => simp [Except.map]
  | ok parts => simp [Except.map, Prod.ext_iff]

theorem behind_append (u v : Text) : behind (byteSize u) (u ++ v) = .ok v :=
  behind_eq_ok_iff.mpr ⟨u, rfl, rfl⟩

/-- A slice is the text that starts and ends at the two offsets. -/
theorem slice_eq_ok_iff :
    slice start stop t = .ok u ↔
      ∃ before after, t = before ++ u ++ after ∧ start = byteSize before ∧
        stop = byteSize (before ++ u) := by
  constructor
  · intro sliced
    unfold slice at sliced
    split at sliced
    · cases divided : divide stop t with
      | error slip => simp [divided, bind, Except.bind] at sliced
      | ok parts =>
        obtain ⟨front, after⟩ := parts
        simp only [divided, bind, Except.bind] at sliced
        obtain ⟨before, rfl, rfl⟩ := behind_eq_ok_iff.mp sliced
        obtain ⟨rfl, rfl⟩ := divide_eq_ok_iff.mp divided
        exact ⟨before, after, rfl, rfl, rfl⟩
    · cases sliced
  · rintro ⟨before, after, rfl, rfl, rfl⟩
    have forward : byteSize before ≤ byteSize (before ++ u) := by simp
    simp only [slice, if_pos forward, divide_append, bind, Except.bind]
    exact behind_append before u

theorem slice_append (before u after : Text) :
    slice (byteSize before) (byteSize (before ++ u)) (before ++ u ++ after) = .ok u :=
  slice_eq_ok_iff.mpr ⟨before, after, rfl, rfl, rfl⟩

theorem le_byteSize_of_slice (sliced : slice start stop t = .ok u) : stop ≤ byteSize t := by
  obtain ⟨before, after, rfl, -, rfl⟩ := slice_eq_ok_iff.mp sliced
  rw [byteSize_append (before ++ u)]
  exact Nat.le_add_right _ _

/-- The bytes of a text from the offset `start` up to `stop`, the end not included. -/
def bytesBetween (start stop : Nat) (t : Text) : Bytes :=
  ((encode t).drop start).take (stop - start)

/-- The bytes between the ends of a slice encode it. -/
theorem bytesBetween_of_slice (sliced : slice start stop t = .ok u) :
    bytesBetween start stop t = encode u := by
  obtain ⟨before, after, rfl, rfl, rfl⟩ := slice_eq_ok_iff.mp sliced
  rw [bytesBetween, byteSize_append, Nat.add_sub_cancel_left, List.append_assoc, encode_append,
    encode_append, byteSize, byteSize, List.drop_left, List.take_left]

end Text

end RulePruner
