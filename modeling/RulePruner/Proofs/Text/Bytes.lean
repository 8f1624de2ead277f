import Mathlib.Data.List.Infix
import RulePruner.Text.Encoding

/-!
# Texts and their bytes

Every character is encoded as one byte below 0x80 or as bytes that all lie above it, and characters
are told apart by the bytes that they start with. So a name behind a dot that is found in the bytes
of a text stands in the text itself (`Text.exists_of_find?_eq_some`), and the bytes of braces stand
for braces only (`Text.eq_of_mem_encodeChar`), as many and at the same places (`Text.count_encode`,
`Text.getElem?_encode_eq_some_iff`).
-/

namespace RulePruner.Text

theorem high_or (x : UInt8) {y : UInt8} (high : 0x80 ≤ y.toNat) : 0x80 ≤ (x ||| y).toNat := by
  rw [UInt8.toNat_or]
  exact Nat.le_trans high Nat.right_le_or

/-- A character is encoded as one byte below 0x80 or as bytes that all lie above it. -/
theorem encodeChar_cases (c : Char) :
    (c.toNat < 0x80 ∧ String.utf8EncodeChar c = [UInt8.ofNat c.toNat]) ∨
      ∀ b ∈ String.utf8EncodeChar c, 0x80 ≤ b.toNat := by
  by_cases one : c.utf8Size = 1
  · left
    have low := Char.utf8Size_eq_one_iff.mp one
    rw [UInt32.le_iff_toNat_le] at low
    exact ⟨Nat.lt_succ_of_le low, String.utf8EncodeChar_eq_singleton one⟩
  · right
    have least := c.utf8Size_pos
    have greatest := c.utf8Size_le_four
    intro b member
    obtain two | three | four : c.utf8Size = 2 ∨ c.utf8Size = 3 ∨ c.utf8Size = 4 := by omega
    · rw [String.utf8EncodeChar_eq_cons_cons two] at member
      simp only [List.mem_cons, List.not_mem_nil, or_false] at member
      rcases member with rfl | rfl <;> exact high_or _ (by decide)
    · rw [String.utf8EncodeChar_eq_cons_cons_cons three] at member
      simp only [List.mem_cons, List.not_mem_nil, or_false] at member
      rcases member with rfl | rfl | rfl <;> exact high_or _ (by decide)
    · rw [String.utf8EncodeChar_eq_cons_cons_cons_cons four] at member
      simp only [List.mem_cons, List.not_mem_nil, or_false] at member
      rcases member with rfl | rfl | rfl | rfl <;> exact high_or _ (by decide)

theorem exists_encodeChar_eq_cons (c : Char) : ∃ b tail, String.utf8EncodeChar c = b :: tail ∧
    ∀ b ∈ tail, 0x80 ≤ b.toNat := by
  have size := String.length_utf8EncodeChar c
  have positive := c.utf8Size_pos
  rcases encodeChar_cases c with ⟨-, single⟩ | high
  · exact ⟨_, [], single, by simp⟩
  · cases bytes : String.utf8EncodeChar c with
    | nil =>
      rw [bytes, List.length_nil] at size
      omega
    | cons b tail =>
      refine ⟨b, tail, rfl, fun b' member => ?_⟩
      exact high b' (bytes ▸ List.mem_cons_of_mem b member)

/-- Characters are told apart by the bytes that they start with. -/
theorem encodeChar_append_inj {c d : Char} {x y : Bytes}
    (same : String.utf8EncodeChar c ++ x = String.utf8EncodeChar d ++ y) : c = d := by
  have decoded (c : Char) (x : Bytes) :
      (String.utf8EncodeChar c ++ x).toByteArray.utf8DecodeChar? 0 = some c := by
    rw [List.toByteArray_append]
    exact ByteArray.utf8DecodeChar?_utf8EncodeChar_append
  have first := decoded c x
  rw [same, decoded d y] at first
  exact (Option.some.inj first).symm

theorem encode_cons (c : Char) (t : Text) :
    encode (c :: t) = String.utf8EncodeChar c ++ encode t := rfl

theorem ne_nil_of_encodeChar (c : Char) : String.utf8EncodeChar c ≠ [] := by
  obtain ⟨b, tail, bytes, -⟩ := exists_encodeChar_eq_cons c
  simp [bytes]

/-- Bytes that start like the encoding of a text encode one that starts with that text. -/
theorem exists_rest_of_encode {t u : Text} {y : Bytes} (same : encode t = encode u ++ y) :
    ∃ rest, t = u ++ rest ∧ y = encode rest := by
  induction u generalizing t with
  | nil => exact ⟨t, rfl, same.symm⟩
  | cons d u ih =>
    rw [encode_cons, List.append_assoc] at same
    cases t with
    | nil =>
      exact absurd (List.append_eq_nil_iff.mp same.symm).1 (ne_nil_of_encodeChar d)
    | cons c t =>
      rw [encode_cons] at same
      obtain rfl := encodeChar_append_inj same
      obtain ⟨rest, rfl, rfl⟩ := ih (List.append_cancel_left same)
      exact ⟨rest, rfl, rfl⟩

/-- A byte below 0x80 is never a later byte of a character. -/
theorem exists_front_of_encode {t : Text} {x y : Bytes} {b : UInt8} (low : b.toNat < 0x80)
    (same : encode t = x ++ b :: y) :
    ∃ front rest, t = front ++ rest ∧ x = encode front ∧ b :: y = encode rest := by
  induction t generalizing x with
  | nil => exact absurd (List.append_eq_nil_iff.mp same.symm).2 (List.cons_ne_nil b y)
  | cons c t ih =>
    cases x with
    | nil => exact ⟨[], c :: t, rfl, rfl, same.symm⟩
    | cons a x =>
      obtain ⟨first, tail, bytes, high⟩ := exists_encodeChar_eq_cons c
      rw [encode_cons, bytes, List.cons_append, List.cons_append] at same
      obtain ⟨rfl, later⟩ := List.cons_eq_cons.mp same
      have whole : tail <+: x := by
        rcases List.prefix_or_prefix_of_prefix ⟨encode t, later⟩ ⟨b :: y, rfl⟩ with
          whole | ⟨between, rfl⟩
        · exact whole
        · cases between with
          | nil => simp
          | cons b' between =>
            rw [List.append_assoc] at later
            obtain ⟨rfl, -⟩ := List.cons_eq_cons.mp (List.append_cancel_left later)
            have := high b' (by simp)
            omega
      obtain ⟨between, rfl⟩ := whole
      rw [List.append_assoc] at later
      obtain ⟨front, rest, rfl, rfl, behind⟩ := ih (List.append_cancel_left later)
      exact ⟨c :: front, rest, rfl, by rw [encode_cons, bytes]; rfl, behind⟩

/-- A byte below 0x80 is the encoding of one character only. -/
theorem eq_of_mem_encodeChar {c d : Char} (low : d.toNat < 0x80)
    (member : UInt8.ofNat d.toNat ∈ String.utf8EncodeChar c) : c = d := by
  have byte {c : Char} (low : c.toNat < 0x80) : (UInt8.ofNat c.toNat).toNat = c.toNat := by
    rw [UInt8.toNat_ofNat']
    exact Nat.mod_eq_of_lt (by omega)
  rcases encodeChar_cases c with ⟨low', single⟩ | high
  · rw [single, List.mem_singleton] at member
    have same := congrArg UInt8.toNat member
    rw [byte low, byte low'] at same
    exact Char.toNat_inj.mp same.symm
  · have := high _ member
    rw [byte low] at this
    omega

/-- A character below 0x80 is encoded as the byte of its code. -/
theorem encodeChar_of_low {d : Char} (low : d.toNat < 0x80) :
    String.utf8EncodeChar d = [UInt8.ofNat d.toNat] := by
  have one : d.utf8Size = 1 := by
    rw [Char.utf8Size_eq_one_iff, UInt32.le_iff_toNat_le]
    exact Nat.le_of_lt_succ low
  exact String.utf8EncodeChar_eq_singleton one

theorem count_encodeChar {d : Char} (low : d.toNat < 0x80) (c : Char) :
    (String.utf8EncodeChar c).count (UInt8.ofNat d.toNat) = [c].count d := by
  by_cases same : c = d
  · subst same
    rw [encodeChar_of_low low, List.count_singleton_self, List.count_singleton_self]
  · have absent : UInt8.ofNat d.toNat ∉ String.utf8EncodeChar c := by
      intro member
      exact same (eq_of_mem_encodeChar low member)
    rw [List.count_eq_zero_of_not_mem absent, List.count_eq_zero_of_not_mem]
    simpa using Ne.symm same

/-- The bytes of a text hold a character below 0x80 as often as the text does. -/
theorem count_encode {d : Char} (low : d.toNat < 0x80) (t : Text) :
    (encode t).count (UInt8.ofNat d.toNat) = t.count d := by
  induction t with
  | nil => rfl
  | cons c t ih =>
    rw [encode_cons, List.count_append, count_encodeChar low, ih, ← List.count_append]
    rfl

/-- The byte of a character below 0x80 stands where the character does. -/
theorem getElem?_encode_eq_some_iff {d : Char} {offset : Nat} {t : Text} (low : d.toNat < 0x80) :
    (encode t)[offset]? = some (UInt8.ofNat d.toNat) ↔
      ∃ front rest, t = front ++ d :: rest ∧ offset = byteSize front := by
  constructor
  · intro here
    obtain ⟨inside, byte⟩ := List.getElem?_eq_some_iff.mp here
    have whole : encode t =
        (encode t).take offset ++ UInt8.ofNat d.toNat :: (encode t).drop (offset + 1) := by
      rw [← byte, List.getElem_cons_drop, List.take_append_drop]
    have lowByte : (UInt8.ofNat d.toNat).toNat < 0x80 := by
      rw [UInt8.toNat_ofNat']
      exact Nat.lt_of_le_of_lt (Nat.mod_le _ _) low
    obtain ⟨front, rest, rfl, before, behind⟩ := exists_front_of_encode lowByte whole
    have size : offset = byteSize front := by
      have := congrArg List.length before
      rwa [List.length_take_of_le (Nat.le_of_lt inside)] at this
    cases rest with
    | nil => cases behind
    | cons c rest =>
      obtain ⟨first, tail, bytes, -⟩ := exists_encodeChar_eq_cons c
      rw [encode_cons, bytes, List.cons_append] at behind
      obtain ⟨rfl, -⟩ := List.cons_eq_cons.mp behind
      obtain rfl : c = d := eq_of_mem_encodeChar low (by rw [bytes]; simp)
      exact ⟨front, rest, rfl, size⟩
  · rintro ⟨front, rest, rfl, rfl⟩
    rw [encode_append, encode_cons, encodeChar_of_low low, byteSize,
      List.getElem?_append_right (Nat.le_refl _), Nat.sub_self]
    rfl

/-- The least offset at which bytes hold others, if there is one. -/
def find? (needle bytes : Bytes) : Option Nat := bytes.tails.findIdx? needle.isPrefixOf

variable {name t : Text}

theorem encode_dot (name : Text) : encode ('.' :: name) = 0x2E :: encode name := rfl

theorem encode_of_front {u t : Text} (front : u <+: t) : encode u <+: encode t := by
  obtain ⟨rest, rfl⟩ := front
  exact ⟨encode rest, (encode_append u rest).symm⟩

theorem not_prefix_of_find?_eq_none (missing : find? (encode ('.' :: name)) (encode t) = none)
    {front rest : Text} (split : t = front ++ rest) : ¬ '.' :: name <+: rest := by
  intro starts
  have tail : encode rest ∈ (encode t).tails :=
    (List.mem_tails _ _).mpr ⟨encode front, by rw [split, encode_append]⟩
  have absent := List.findIdx?_eq_none_iff.mp missing _ tail
  rw [List.isPrefixOf_iff_prefix.mpr (encode_of_front starts)] at absent
  cases absent

/-- A search in the bytes finds the place of the text at which the name stands first. -/
theorem exists_of_find?_eq_some {n : Nat}
    (found : find? (encode ('.' :: name)) (encode t) = some n) :
    ∃ kept after, t = kept ++ ('.' :: name ++ after) ∧ n = byteSize kept ∧
      ∀ front rest, kept = front ++ rest → rest ≠ [] →
        ¬ '.' :: name <+: rest ++ ('.' :: name ++ after) := by
  obtain ⟨inside, here, first⟩ := List.findIdx?_eq_some_iff_getElem.mp found
  simp only [List.getElem_tails, List.isPrefixOf_iff_prefix] at here first
  rw [List.length_tails] at inside
  obtain ⟨y, behind⟩ := here
  have whole : encode t = (encode t).take n ++ 0x2E :: (encode name ++ y) := by
    conv_lhs => rw [← List.take_append_drop n (encode t), ← behind, encode_dot]
    rfl
  obtain ⟨kept, rest, rfl, before, later⟩ := exists_front_of_encode (by decide) whole
  obtain ⟨after, rfl, -⟩ := exists_rest_of_encode (u := '.' :: name) (y := y) later.symm
  have size : n = byteSize kept := by
    have := congrArg List.length before
    rw [List.length_take_of_le (by omega)] at this
    exact this
  refine ⟨kept, after, rfl, size, ?_⟩
  rintro front rest rfl more starts
  refine first (byteSize front) ?_ ?_
  · have := length_le_byteSize rest
    have := List.length_pos_iff.mpr more
    rw [size, byteSize_append]
    omega
  · rw [List.append_assoc, encode_append, byteSize, List.drop_left]
    exact encode_of_front starts

end RulePruner.Text
