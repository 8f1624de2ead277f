import RulePruner.Text.Basic

/-!
The UTF-8 form of a text: its bytes, their number, and reading bytes back as a text. Offsets into
a stylesheet and the limits of files and writers count these bytes.
-/

namespace RulePruner

/-- The content of a file or of a stream. -/
abbrev Bytes := List UInt8

namespace Text

/-- The UTF-8 bytes of a text. -/
def encode (t : Text) : Bytes := t.flatMap String.utf8EncodeChar

/-- The text whose UTF-8 form the bytes are, if they are well formed. -/
def decode? (bytes : Bytes) : Option Text :=
  bytes.toByteArray.utf8Decode?.map Array.toList

/-- The number of UTF-8 bytes of a text. -/
def byteSize (t : Text) : Nat := (encode t).length

@[simp] theorem encode_nil : encode [] = [] := rfl

@[simp] theorem encode_append (a b : Text) : encode (a ++ b) = encode a ++ encode b := by
  simp [encode]

@[simp] theorem byteSize_nil : byteSize [] = 0 := rfl

@[simp] theorem byteSize_cons (c : Char) (t : Text) :
    byteSize (c :: t) = c.utf8Size + byteSize t := by
  simp [byteSize, encode]

@[simp] theorem byteSize_append (a b : Text) : byteSize (a ++ b) = byteSize a + byteSize b := by
  simp [byteSize]

/-- Every character takes at least one byte. -/
theorem length_le_byteSize (t : Text) : t.length ≤ byteSize t := by
  induction t with
  | nil => exact Nat.le_refl 0
  | cons c t ih =>
    have := c.utf8Size_pos
    rw [byteSize_cons, List.length_cons]
    omega

/-- Of two places of a text, the one that is reached first has no more bytes before it. -/
theorem byteSize_le_of_length_le {a b u v : Text} (same : a ++ u = b ++ v)
    (early : a.length ≤ b.length) : byteSize a ≤ byteSize b := by
  obtain ⟨between, rfl⟩ : a <+: b := List.prefix_of_prefix_length_le ⟨u, same⟩ ⟨v, rfl⟩ early
  rw [byteSize_append]
  exact Nat.le_add_right _ _

/-- Of two places of a text, the one with fewer bytes before it is reached first. -/
theorem prefix_of_byteSize_le {a b u v : Text} (same : a ++ u = b ++ v)
    (early : byteSize a ≤ byteSize b) : a <+: b := by
  rcases List.prefix_or_prefix_of_prefix ⟨u, same⟩ ⟨v, rfl⟩ with front | ⟨between, rfl⟩
  · exact front
  · have size := length_le_byteSize between
    rw [byteSize_append] at early
    obtain rfl : between = [] := List.eq_nil_of_length_eq_zero (by omega)
    simp

/-- A place of a text is told by the number of bytes before it. -/
theorem eq_of_byteSize_eq {a b u v : Text} (same : a ++ u = b ++ v)
    (size : byteSize a = byteSize b) : a = b := by
  have front := prefix_of_byteSize_le same (Nat.le_of_eq size)
  have back := prefix_of_byteSize_le same.symm (Nat.le_of_eq size.symm)
  exact front.eq_of_length (Nat.le_antisymm front.length_le back.length_le)

/-- Encoded text reads back as itself. -/
theorem decode?_encode (t : Text) : decode? (encode t) = some t := by
  have whole : (encode t).toByteArray = t.utf8Encode := by simp [encode, List.utf8Encode]
  simp [decode?, whole]

/-- Bytes read as a text just if they are its encoding. -/
theorem decode?_eq_some_iff {bytes : Bytes} {t : Text} :
    decode? bytes = some t ↔ bytes = encode t := by
  constructor
  · intro decoded
    obtain ⟨chars, read, rfl⟩ := Option.map_eq_some_iff.mp decoded
    have valid : bytes.toByteArray.utf8Decode?.isSome := by rw [read]; rfl
    have whole := ByteArray.utf8Encode_get_utf8Decode? (h := valid)
    have same : bytes.toByteArray = (encode chars.toList).toByteArray := by
      simp only [read, Option.get_some] at whole
      rw [← whole]
      simp [encode, List.utf8Encode]
    simpa using congrArg (fun array => array.data.toList) same
  · rintro rfl
    exact decode?_encode t

end Text

end RulePruner
