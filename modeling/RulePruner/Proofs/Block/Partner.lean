import Mathlib.Order.Bounds.Basic
import RulePruner.Proofs.Block.Bytes

/-!
# The partner of a brace

The brace that closes a block stands at the first place up to which as many braces are closed as
opened. Following the bytes ends there, for its count of open braces is the height that the bytes
read so far leave, and it stops where that gets to zero (`Block.follow_eq_some_iff`). The search
over characters gets to the same place (`Block.partner?_eq`), and the text between the two braces is
well nested (`Block.encloses_iff`). The main statement is `Block.closes_at_first_balance`.
-/

namespace RulePruner

namespace Block

open Text

variable {level offset opening close place : Nat} {b : UInt8} {bytes : Bytes} {css : Text}

/-- The number of braces open behind bytes that are read with `level` braces open. -/
def height (level : Nat) (bytes : Bytes) : Int := level + bytes.count 0x7B - bytes.count 0x7D

/-- The number of braces open behind a byte. -/
def openBehind (level : Nat) (b : UInt8) : Nat :=
  if b = 0x7B then level + 1 else if b = 0x7D then level - 1 else level

@[simp] theorem height_nil : height level [] = level := by simp [height]

/-- The height follows the count of open braces, which gets no lower than zero, as long as a byte
that closes a brace finds one open. -/
theorem height_cons (room : b = 0x7D → 0 < level) :
    height level (b :: bytes) = height (openBehind level b) bytes := by
  by_cases opens : b = 0x7B
  · subst opens
    rw [height, height, openBehind, if_pos rfl, List.count_cons_self,
      List.count_cons_of_ne (by decide)]
    omega
  · by_cases closes : b = 0x7D
    · subst closes
      have := room rfl
      rw [height, height, openBehind, if_neg opens, if_pos rfl, List.count_cons_of_ne opens,
        List.count_cons_self]
      omega
    · rw [height, height, openBehind, if_neg opens, if_neg closes, List.count_cons_of_ne opens,
        List.count_cons_of_ne closes]

/-- A byte is followed as what it leaves open. -/
theorem follow_cons (positive : 0 < level) :
    follow level offset (b :: bytes) =
      if openBehind level b = 0 then .ok (some offset)
      else follow (openBehind level b) (offset + 1) bytes := by
  by_cases opens : b = 0x7B
  · simp [follow, openBehind, opens]
  · by_cases closes : b = 0x7D
    · subst closes
      have left : Slip.subtract level 1 = .ok (level - 1) := if_pos positive
      simp [follow, openBehind, left, bind, Except.bind]
    · simp [follow, openBehind, opens, closes, positive.ne']

/-- The number of braces open behind the byte at the offset `place`, for bytes that start at
`offset` and are read with `level` braces open. -/
def heightAt (level offset : Nat) (bytes : Bytes) (place : Nat) : Int :=
  height level (bytes.take (place + 1 - offset))

theorem heightAt_self (room : b = 0x7D → 0 < level) :
    heightAt level offset (b :: bytes) offset = openBehind level b := by
  rw [heightAt, Nat.add_sub_cancel_left, List.take_succ_cons, height_cons room, List.take_zero,
    height_nil]

theorem heightAt_of_lt (room : b = 0x7D → 0 < level) (behind : offset < place) :
    heightAt level offset (b :: bytes) place =
      heightAt (openBehind level b) (offset + 1) bytes place := by
  rw [heightAt, heightAt, Nat.succ_sub (Nat.le_of_lt behind), List.take_succ_cons,
    height_cons room, Nat.add_sub_add_right]

/-- Whether all braces are closed behind the byte at the offset `place`. -/
def Settles (level offset : Nat) (bytes : Bytes) (place : Nat) : Prop :=
  offset ≤ place ∧ place < offset + bytes.length ∧ heightAt level offset bytes place = 0

/-- Whether a brace is open behind each byte. -/
def StaysOpen (level offset : Nat) (bytes : Bytes) : Prop :=
  ∀ place, offset ≤ place → place < offset + bytes.length → 0 < heightAt level offset bytes place

/-- If a brace is open behind the first byte, all are closed where those open behind it are. -/
theorem settles_cons_iff (room : b = 0x7D → 0 < level) (more : openBehind level b ≠ 0) :
    Settles level offset (b :: bytes) place ↔
      Settles (openBehind level b) (offset + 1) bytes place := by
  constructor
  · rintro ⟨here, inside, closed⟩
    obtain rfl | behind := Nat.eq_or_lt_of_le here
    · rw [heightAt_self room] at closed
      omega
    · rw [heightAt_of_lt room behind] at closed
      rw [List.length_cons] at inside
      exact ⟨behind, by omega, closed⟩
  · rintro ⟨behind, inside, closed⟩
    rw [← heightAt_of_lt room behind] at closed
    exact ⟨Nat.le_of_lt behind, by rw [List.length_cons]; omega, closed⟩

theorem staysOpen_cons_iff (room : b = 0x7D → 0 < level) :
    StaysOpen level offset (b :: bytes) ↔
      openBehind level b ≠ 0 ∧ StaysOpen (openBehind level b) (offset + 1) bytes := by
  constructor
  · intro stays
    constructor
    · have first := stays offset (Nat.le_refl _) (by simp)
      rw [heightAt_self room] at first
      omega
    · intro place behind inside
      rw [← heightAt_of_lt room behind]
      exact stays place (Nat.le_of_lt behind) (by rw [List.length_cons]; omega)
  · rintro ⟨more, stays⟩ place here inside
    obtain rfl | behind := Nat.eq_or_lt_of_le here
    · rw [heightAt_self room]
      omega
    · rw [heightAt_of_lt room behind]
      rw [List.length_cons] at inside
      exact stays place behind (by omega)

/-- Bytes are followed to the first place where all braces are closed. -/
theorem follow_eq_some_iff (positive : 0 < level) :
    follow level offset bytes = .ok (some close) ↔
      IsLeast {place | Settles level offset bytes place} close := by
  induction bytes generalizing level offset with
  | nil =>
    constructor
    · intro found
      cases found
    · rintro ⟨⟨here, inside, -⟩, -⟩
      rw [List.length_nil] at inside
      omega
  | cons b bytes ih =>
    have room : b = 0x7D → 0 < level := fun _ => positive
    rw [follow_cons positive]
    by_cases last : openBehind level b = 0
    · have least : IsLeast {place | Settles level offset (b :: bytes) place} offset := by
        refine ⟨⟨Nat.le_refl _, by simp, ?_⟩, fun place settles => settles.1⟩
        rw [heightAt_self room, last]
        rfl
      rw [if_pos last]
      constructor
      · intro found
        cases found
        exact least
      · intro least'
        rw [least.unique least']
    · simp only [settles_cons_iff room last]
      rw [if_neg last]
      exact ih (Nat.pos_of_ne_zero last)

/-- Bytes are followed to their end if and only if a brace is open behind each of them. -/
theorem follow_eq_none_iff (positive : 0 < level) :
    follow level offset bytes = .ok none ↔ StaysOpen level offset bytes := by
  induction bytes generalizing level offset with
  | nil =>
    refine ⟨fun _ place here inside => ?_, fun _ => rfl⟩
    rw [List.length_nil] at inside
    omega
  | cons b bytes ih =>
    rw [follow_cons positive, staysOpen_cons_iff fun _ => positive]
    by_cases last : openBehind level b = 0
    · rw [if_pos last]
      constructor
      · intro found
        cases found
      · intro stays
        exact absurd last stays.1
    · rw [if_neg last, ih (Nat.pos_of_ne_zero last)]
      exact (and_iff_right last).symm

/-- The braces that the bytes from the offset `opening` through `place` open and close. -/
def ByteCounts (css : Text) (opening place opened closed : Nat) : Prop :=
  place < byteSize css ∧ (bytesBetween opening (place + 1) css).count 0x7B = opened ∧
    (bytesBetween opening (place + 1) css).count 0x7D = closed

/-- The braces that the text from the byte offset `opening` through `place` opens and closes, if a
character ends there. -/
def CharCounts (css : Text) (opening place opened closed : Nat) : Prop :=
  ∃ part, slice opening (place + 1) css = .ok part ∧ part.count '{' = opened ∧
    part.count '}' = closed

/-- That `found` is the first place from `opening` on up to which as many braces are closed as
opened, or nothing if more are opened than closed up to each place. -/
structure FindsBalance (Counts : Nat → Nat → Nat → Prop) (opening : Nat) (found : Option Nat) :
    Prop where
  some_iff (close : Nat) :
    found = some close ↔ IsLeast {place | opening ≤ place ∧ ∃ n, Counts place n n} close
  none_iff :
    found = none ↔ ∀ place opened closed, opening ≤ place → Counts place opened closed →
      closed < opened

/-- If fewer places are counted, but the one found is, it is still the first one. -/
theorem FindsBalance.of_fewer {Counts Fewer : Nat → Nat → Nat → Prop} {found : Option Nat}
    (finds : FindsBalance Counts opening found)
    (fewer : ∀ place opened closed, Fewer place opened closed → Counts place opened closed)
    (seen : ∀ close ∈ found, ∃ n, Fewer close n n) : FindsBalance Fewer opening found := by
  have least (close : Nat) (member : close ∈ found) :
      IsLeast {place | opening ≤ place ∧ ∃ n, Fewer place n n} close := by
    obtain ⟨⟨here, -⟩, first⟩ := (finds.some_iff close).mp member
    refine ⟨⟨here, seen close member⟩, ?_⟩
    rintro place ⟨behind, n, counts⟩
    exact first ⟨behind, n, fewer _ _ _ counts⟩
  constructor
  · intro close
    refine ⟨least close, fun least' => ?_⟩
    cases found with
    | none =>
      obtain ⟨⟨here, n, counts⟩, -⟩ := least'
      exact absurd (finds.none_iff.mp rfl _ _ _ here (fewer _ _ _ counts)) (Nat.lt_irrefl n)
    | some close' => rw [(least close' rfl).unique least']
  · constructor
    · intro nothing place opened closed here counts
      exact finds.none_iff.mp nothing place opened closed here (fewer _ _ _ counts)
    · intro more
      cases found with
      | none => rfl
      | some close =>
        obtain ⟨⟨here, n, counts⟩, -⟩ := least close rfl
        exact absurd (more _ _ _ here counts) (Nat.lt_irrefl n)

theorem height_zero_eq_zero_iff : height 0 bytes = 0 ↔ bytes.count 0x7D = bytes.count 0x7B := by
  rw [height]
  omega

theorem height_zero_pos_iff : 0 < height 0 bytes ↔ bytes.count 0x7D < bytes.count 0x7B := by
  rw [height]
  omega

/-- The bytes behind an opening brace are followed with one brace open. -/
theorem exists_behind_brace (brace : (encode css)[opening]? = some 0x7B) :
    ∃ bytes, (encode css).drop opening = 0x7B :: bytes ∧
      byteSize css = opening + (0x7B :: bytes : Bytes).length ∧
      partner? opening css = follow 1 (opening + 1) bytes := by
  obtain ⟨inside, here⟩ := List.getElem?_eq_some_iff.mp brace
  have split : (encode css).drop opening = 0x7B :: (encode css).drop (opening + 1) := by
    rw [List.drop_eq_getElem_cons inside, here]
  refine ⟨_, split, ?_, ?_⟩
  · rw [← split, List.length_drop, byteSize]
    omega
  · simp only [partner?, if_pos (Nat.le_of_lt inside), split, List.head?_cons, if_true]
    rfl

/-- Following the bytes from an opening brace on ends with the first place where they balance. -/
theorem findsBalance_of_partner? {found : Option Nat} (brace : (encode css)[opening]? = some 0x7B)
    (ended : partner? opening css = .ok found) :
    FindsBalance (ByteCounts css opening) opening found := by
  -- The counts take in the brace itself, so they are heights over all bytes from it on, read with
  -- none open; the bytes behind it are those that are followed.
  obtain ⟨bytes, split, size, followed⟩ := exists_behind_brace brace
  rw [followed] at ended
  constructor
  · intro close
    have balanced (place : Nat) : (opening ≤ place ∧ ∃ n, ByteCounts css opening place n n) ↔
        Settles 1 (opening + 1) bytes place := by
      have settles := @settles_cons_iff 0 opening place 0x7B bytes (by decide) (by decide)
      rw [Settles, ← size, heightAt, height_zero_eq_zero_iff, ← split] at settles
      refine Iff.trans ?_ settles
      simp only [ByteCounts, bytesBetween, exists_and_left, exists_eq_left']
    simp only [balanced]
    rw [← follow_eq_some_iff Nat.one_pos, ended, Except.ok.injEq]
  · have stays := @staysOpen_cons_iff 0 opening 0x7B bytes (by decide)
    rw [StaysOpen, ← size] at stays
    simp only [heightAt, height_zero_pos_iff, ← split] at stays
    have nothing : found = none ↔ StaysOpen 1 (opening + 1) bytes := by
      rw [← follow_eq_none_iff Nat.one_pos, ended, Except.ok.injEq]
    rw [nothing]
    constructor
    · rintro open_ place opened closed here ⟨inside, rfl, rfl⟩
      exact stays.mpr ⟨by decide, open_⟩ place here inside
    · intro more
      exact (stays.mp fun place here inside => more _ _ _ here ⟨inside, rfl, rfl⟩).2

/-- The byte offset of the brace that closes the block at the byte offset `opening`. -/
def closingOffset? (opening : Nat) (css : Text) : Option Nat :=
  match behind opening css with
  | .ok rest => (length? none rest).map fun n => opening + byteSize (rest.take (n - 1))
  | .error _ => none

/-- Whether a closing brace stands at the byte offset `close`, and well-nested text between the
brace at `opening` and it. -/
def Encloses (css : Text) (opening close : Nat) : Prop :=
  (encode css)[close]? = some 0x7D ∧
    ∃ inner, slice (opening + 1) close css = .ok inner ∧ WellNested inner

variable {front body : Text}

theorem exists_front_of_brace (brace : (encode css)[opening]? = some 0x7B) :
    ∃ front body, css = front ++ '{' :: body ∧ opening = byteSize front := by
  have low : ('{' : Char).toNat < 0x80 := by decide
  exact (getElem?_encode_eq_some_iff low).mp brace

/-- The block behind an opening brace goes to the brace that closes well-nested text. -/
theorem length?_cons_eq_some_iff {n : Nat} :
    length? none ('{' :: body) = some n ↔
      ∃ inner after, body = inner ++ '}' :: after ∧ WellNested inner ∧ n = inner.length + 2 := by
  rw [length?_eq_some_iff (by simp)]
  constructor
  · rintro ⟨block, after, split, rfl, isBlock⟩
    obtain ⟨inner, rfl, nested⟩ := isBlock_iff_exists_wellNested.mp isBlock
    exact ⟨inner, after, by simpa using split, nested, by simp⟩
  · rintro ⟨inner, after, rfl, nested, rfl⟩
    exact ⟨_, after, by simp, by simp, isBlock_iff_exists_wellNested.mpr ⟨inner, rfl, nested⟩⟩

theorem closingOffset?_eq_some_iff :
    closingOffset? (byteSize front) (front ++ '{' :: body) = some close ↔
      ∃ inner after, body = inner ++ '}' :: after ∧ WellNested inner ∧
        close = byteSize (front ++ '{' :: inner) := by
  have taken (inner after : Text) :
      ('{' :: (inner ++ '}' :: after)).take (inner.length + 1) = '{' :: inner := by simp
  simp only [closingOffset?, behind_append, Option.map_eq_some_iff, length?_cons_eq_some_iff]
  constructor
  · rintro ⟨n, ⟨inner, after, rfl, nested, rfl⟩, rfl⟩
    refine ⟨inner, after, rfl, nested, ?_⟩
    rw [Nat.add_sub_cancel (inner.length + 1) 1, taken, byteSize_append]
  · rintro ⟨inner, after, rfl, nested, rfl⟩
    refine ⟨_, ⟨inner, after, rfl, nested, rfl⟩, ?_⟩
    rw [Nat.add_sub_cancel (inner.length + 1) 1, taken, byteSize_append]

theorem byteSize_append_block (front inner : Text) :
    byteSize (front ++ '{' :: (inner ++ ['}'])) = byteSize (front ++ '{' :: inner) + 1 := by
  rw [← List.cons_append, ← List.append_assoc, byteSize_append]
  rfl

/-- Up to the brace at which a search ends, as many braces are closed as opened. -/
theorem exists_charCounts (brace : (encode css)[opening]? = some 0x7B)
    (found : closingOffset? opening css = some close) : ∃ n, CharCounts css opening close n n := by
  obtain ⟨front, body, rfl, rfl⟩ := exists_front_of_brace brace
  obtain ⟨inner, after, rfl, nested, rfl⟩ := closingOffset?_eq_some_iff.mp found
  have closed := (isBlock_iff_exists_wellNested.mpr ⟨inner, rfl, nested⟩).closed
  have sliced := slice_append front ('{' :: (inner ++ ['}'])) after
  rw [depth] at closed
  rw [byteSize_append_block] at sliced
  exact ⟨_, '{' :: (inner ++ ['}']), by simpa using sliced, rfl, by omega⟩

/-- The brace at which a search ends closes well-nested text, and no other brace does. -/
theorem encloses_iff (brace : (encode css)[opening]? = some 0x7B) :
    Encloses css opening close ↔ closingOffset? opening css = some close := by
  obtain ⟨front, body, rfl, rfl⟩ := exists_front_of_brace brace
  have low : ('}' : Char).toNat < 0x80 := by decide
  have size : byteSize front + 1 = byteSize (front ++ ['{']) := (byteSize_append front ['{']).symm
  rw [closingOffset?_eq_some_iff, Encloses, size]
  constructor
  · rintro ⟨closes, inner, sliced, nested⟩
    obtain ⟨before, after, split, start, stop⟩ := slice_eq_ok_iff.mp sliced
    obtain ⟨whole, rest, split', stop'⟩ := (getElem?_encode_eq_some_iff low).mp closes
    obtain rfl : front ++ ['{'] = before := by
      refine eq_of_byteSize_eq (u := body) (v := inner ++ after) ?_ start
      rw [← List.append_assoc, ← split, List.append_assoc]
      rfl
    obtain rfl : front ++ ['{'] ++ inner = whole :=
      eq_of_byteSize_eq (split.symm.trans split') (stop.symm.trans stop')
    rw [List.append_cancel_left (split.symm.trans split')] at split
    refine ⟨inner, rest, ?_, nested, by rw [stop]; simp⟩
    simpa using split
  · rintro ⟨inner, after, rfl, nested, rfl⟩
    have sliced := slice_append (front ++ ['{']) inner ('}' :: after)
    simp only [List.append_assoc, List.singleton_append] at sliced ⊢
    refine ⟨(getElem?_encode_eq_some_iff low).mpr ⟨front ++ '{' :: inner, after, ?_, rfl⟩, inner,
      sliced, nested⟩
    simp

/-- Following bytes gets to where the search over characters does. -/
theorem partner?_eq (brace : (encode css)[opening]? = some 0x7B) :
    partner? opening css = .ok (closingOffset? opening css) := by
  obtain ⟨front, body, rfl, rfl⟩ := exists_front_of_brace brace
  cases found : closingOffset? (byteSize front) (front ++ '{' :: body) with
  | none =>
    refine partner?_of_not_isBlock fun block after split isBlock => ?_
    obtain ⟨inner, rfl, nested⟩ := isBlock_iff_exists_wellNested.mp isBlock
    have closes : closingOffset? (byteSize front) (front ++ '{' :: body) =
        some (byteSize (front ++ '{' :: inner)) :=
      closingOffset?_eq_some_iff.mpr ⟨inner, after, by simpa using split, nested, rfl⟩
    rw [found] at closes
    cases closes
  | some close =>
    obtain ⟨inner, after, rfl, nested, rfl⟩ := closingOffset?_eq_some_iff.mp found
    have isBlock := isBlock_iff_exists_wellNested.mpr ⟨inner, rfl, nested⟩
    obtain ⟨close, followed, last⟩ := @partner?_of_isBlock front _ isBlock after
    rw [byteSize_append_block] at last
    obtain rfl := Nat.succ.inj last
    simpa using followed

/-- The braces of a stretch of text are counted alike by its characters and by its bytes. From an
opening brace on, the search over characters and the one that follows bytes end with the same place:
the first one up to which as many braces are closed as opened, by either way of counting. There, and
nowhere else, stands a closing brace with well-nested text before it, back to the opening one. No
place is found if and only if more braces are opened than closed up to each. -/
theorem closes_at_first_balance (css : Text) :
    (∀ start stop part, slice start stop css = .ok part →
      (bytesBetween start stop css).count 0x7B = part.count '{' ∧
        (bytesBetween start stop css).count 0x7D = part.count '}') ∧
    ∀ opening, (encode css)[opening]? = some 0x7B →
      FindsBalance (CharCounts css opening) opening (closingOffset? opening css) ∧
      FindsBalance (ByteCounts css opening) opening (closingOffset? opening css) ∧
      partner? opening css = .ok (closingOffset? opening css) ∧
      ∀ close, closingOffset? opening css = some close →
        Encloses css opening close ∧ ∀ other, Encloses css opening other → other = close := by
  have counted (start stop : Nat) (part : Text) (sliced : slice start stop css = .ok part) :
      (bytesBetween start stop css).count 0x7B = part.count '{' ∧
        (bytesBetween start stop css).count 0x7D = part.count '}' := by
    rw [bytesBetween_of_slice sliced]
    have opened : ('{' : Char).toNat < 0x80 := by decide
    have closed : ('}' : Char).toNat < 0x80 := by decide
    exact ⟨count_encode opened part, count_encode closed part⟩
  refine ⟨counted, fun opening brace => ?_⟩
  have same := partner?_eq brace
  have byBytes := findsBalance_of_partner? brace same
  refine ⟨byBytes.of_fewer ?_ ?_, byBytes, same, fun close found => ⟨?_, fun other encloses => ?_⟩⟩
  · rintro place _ _ ⟨part, sliced, rfl, rfl⟩
    exact ⟨le_byteSize_of_slice sliced, counted opening (place + 1) part sliced⟩
  · exact fun close found => exists_charCounts brace found
  · exact (encloses_iff brace).mpr found
  · have found' := (encloses_iff brace).mp encloses
    exact Option.some.inj (found'.symm.trans found)

/-- A block with wide characters inside and around it, and behind it braces of which the first one
is never closed. -/
theorem closes_at_first_balance_of_wide_characters :
    let css := "→\x7bé\x7b\x7dü\x7d→é\x7b\x7b\x7d".toList
    let block := "\x7bé\x7b\x7dü\x7d".toList
    (slice 3 11 css = .ok block ∧ (bytesBetween 3 11 css).count 0x7B = block.count '{' ∧
      (bytesBetween 3 11 css).count 0x7D = block.count '}') ∧
    ((encode css)[3]? = some 0x7B ∧ FindsBalance (CharCounts css 3) 3 (some 10) ∧
      FindsBalance (ByteCounts css 3) 3 (some 10) ∧ partner? 3 css = .ok (some 10) ∧
      Encloses css 3 10 ∧ ∀ other, Encloses css 3 other → other = 10) ∧
    (encode css)[16]? = some 0x7B ∧ FindsBalance (CharCounts css 16) 16 none ∧
      FindsBalance (ByteCounts css 16) 16 none ∧ partner? 16 css = .ok none := by
  intro css block
  have sliced : slice 3 11 css = .ok block := rfl
  have outer : (encode css)[3]? = some 0x7B := by decide +kernel
  have unclosed : (encode css)[16]? = some 0x7B := by decide +kernel
  have found : closingOffset? 3 css = some 10 := by decide +kernel
  have nothing : closingOffset? 16 css = none := by decide +kernel
  obtain ⟨counted, searched⟩ := closes_at_first_balance css
  obtain ⟨chars, bytes, followed, encloses⟩ := searched 3 outer
  obtain ⟨chars', bytes', followed', -⟩ := searched 16 unclosed
  rw [found] at chars bytes followed
  rw [nothing] at chars' bytes' followed'
  exact ⟨⟨sliced, counted 3 11 block sliced⟩,
    ⟨outer, chars, bytes, followed, encloses 10 found⟩, unclosed, chars', bytes', followed'⟩

end Block

end RulePruner
