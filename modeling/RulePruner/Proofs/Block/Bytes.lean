import RulePruner.Proofs.Rule.Without
import RulePruner.Proofs.Text.Bytes
import RulePruner.Proofs.Text.Slice

/-!
# Following braces byte by byte

`Block.partner?` looks for the byte of the brace that closes a block. It counts the bytes of braces,
which stand for braces only, so it finds the end of the block that starts at the given place
(`Block.partner?_of_isBlock`), or nothing if no block starts there
(`Block.partner?_of_not_isBlock`). Its count of open braces is never zero where one is closed.
-/

namespace RulePruner.Block

open Text

/-- The offset of the byte at which the last open brace is closed, for bytes that start at `offset`
and are read with `depth` braces open. -/
def follow (depth offset : Nat) : Bytes → Except Slip (Option Nat)
  | [] => .ok none
  | b :: bytes =>
    if b = 0x7B then follow (depth + 1) (offset + 1) bytes
    else if b = 0x7D then do
      let left ← Slip.subtract depth 1
      if left = 0 then .ok (some offset) else follow left (offset + 1) bytes
    else follow depth (offset + 1) bytes

/-- The offset of the brace that closes the one at the byte offset `opening`. -/
def partner? (opening : Nat) (css : Text) : Except Slip (Option Nat) :=
  let bytes := encode css
  if opening ≤ bytes.length then
    let behind := bytes.drop opening
    if behind.head? = some 0x7B then follow 0 opening behind else .error .noBrace
  else .error .outside

variable {level offset : Nat} {t body : Text}

theorem follow_append {bytes : Bytes} (plain : ∀ b ∈ bytes, b ≠ 0x7B ∧ b ≠ 0x7D)
    (rest : Bytes) :
    follow level offset (bytes ++ rest) = follow level (offset + bytes.length) rest := by
  induction bytes generalizing offset with
  | nil => rfl
  | cons b bytes ih =>
    obtain ⟨notOpen, notClose⟩ := plain b (by simp)
    rw [List.cons_append, follow, if_neg notOpen, if_neg notClose,
      ih fun b member => plain b (List.mem_cons_of_mem _ member), List.length_cons, Nat.add_assoc,
      Nat.add_comm 1]

/-- A character is followed as what it adds to the depth. -/
theorem follow_encode_cons (positive : 0 < level) (c : Char) (t : Text) :
    follow level offset (encode (c :: t)) =
      if (level : Int) + weight c = 0 then .ok (some offset)
      else follow ((level : Int) + weight c).toNat (offset + c.utf8Size) (encode t) := by
  by_cases opens : c = '{'
  · subst opens
    have deeper : ¬ (level : Int) + weight '{' = 0 := by
      rw [weight_open]
      omega
    rw [if_neg deeper]
    rfl
  · by_cases closes : c = '}'
    · subst closes
      have left : Slip.subtract level 1 = .ok (level - 1) := if_pos positive
      have bytes : encode ('}' :: t) = 0x7D :: encode t := rfl
      have size : ('}' : Char).utf8Size = 1 := rfl
      have same : ((level : Int) + -1).toNat = level - 1 := by omega
      rw [bytes, follow, if_neg (by decide), if_pos rfl, left, weight_close, same, size]
      by_cases last : level - 1 = 0
      · rw [if_pos (by omega)]
        simp [bind, Except.bind, last]
      · rw [if_neg (by omega)]
        simp [bind, Except.bind, last]
    · have plain : ∀ b ∈ String.utf8EncodeChar c, b ≠ 0x7B ∧ b ≠ 0x7D := by
        intro b member
        constructor
        · rintro rfl
          exact opens (eq_of_mem_encodeChar (d := '{') (by decide) member)
        · rintro rfl
          exact closes (eq_of_mem_encodeChar (d := '}') (by decide) member)
      have open_ : ¬ (level : Int) + 0 = 0 := by omega
      rw [encode_cons, follow_append plain, weight_other opens closes, if_neg open_,
        String.length_utf8EncodeChar]
      simp

/-- From inside a block the braces are followed to its last byte. -/
theorem follow_of_closes (positive : 0 < level) (closes : Closes none level body) (rest : Text) :
    ∃ close, follow level offset (encode (body ++ rest)) = .ok (some close) ∧
      close + 1 = offset + byteSize body := by
  induction body generalizing level offset with
  | nil => exact absurd closes (not_closes_nil (by omega))
  | cons c body ih =>
    rw [closes_cons_iff (by omega) (by simp)] at closes
    rw [List.cons_append, follow_encode_cons positive]
    split at closes
    · rename_i last
      subst closes
      have brace : c = '}' := by
        by_contra other
        have := weight_nonneg other
        omega
      rw [if_pos last, brace]
      exact ⟨offset, rfl, rfl⟩
    · rename_i more
      have := neg_one_le_weight c
      have deeper : (((level : Int) + weight c).toNat : Int) = level + weight c := by omega
      rw [if_neg more]
      rw [← deeper] at closes
      obtain ⟨close, found, size⟩ := ih (by omega) closes
      exact ⟨close, found, by rw [size, byteSize_cons, Nat.add_assoc]⟩

/-- Where the open braces are never all closed, they are followed to the end of the text. -/
theorem follow_of_not_ends (positive : 0 < level) (unclosed : ¬ Ends level t) :
    follow level offset (encode t) = .ok none := by
  induction t generalizing level offset with
  | nil => rfl
  | cons c t ih =>
    rw [ends_cons_iff (by omega), not_or] at unclosed
    have := neg_one_le_weight c
    have deeper : (((level : Int) + weight c).toNat : Int) = level + weight c := by omega
    rw [follow_encode_cons positive, if_neg unclosed.1]
    rw [← deeper] at unclosed
    exact ih (by omega) unclosed.2

theorem partner?_append (front body : Text) :
    partner? (byteSize front) (front ++ '{' :: body) =
      follow 1 (byteSize front + 1) (encode body) := by
  have behind : (encode (front ++ '{' :: body)).drop (byteSize front) = 0x7B :: encode body := by
    rw [encode_append, byteSize, List.drop_left]
    rfl
  have inside : byteSize front ≤ (encode (front ++ '{' :: body)).length := by
    rw [encode_append, List.length_append]
    exact Nat.le_add_right _ _
  simp only [partner?, if_pos inside, behind, List.head?_cons, if_true]
  rfl

/-- The partner of a brace is the last byte of the block that it opens. -/
theorem partner?_of_isBlock {front block : Text} (isBlock : IsBlock none block) (after : Text) :
    ∃ close, partner? (byteSize front) (front ++ (block ++ after)) = .ok (some close) ∧
      close + 1 = byteSize (front ++ block) := by
  cases block with
  | nil => exact absurd isBlock not_isBlock_nil
  | cons c body =>
    obtain ⟨rfl, closes⟩ := (isBlock_cons_iff (by simp)).mp isBlock
    obtain ⟨close, found, size⟩ :=
      @follow_of_closes 1 (byteSize front + 1) body Nat.one_pos closes after
    refine ⟨close, (partner?_append front (body ++ after)).trans found, ?_⟩
    have brace : ('{' : Char).utf8Size = 1 := rfl
    rw [size, byteSize_append, byteSize_cons, brace, Nat.add_assoc]

/-- A brace that opens no block has no partner. -/
theorem partner?_of_not_isBlock {front body : Text}
    (absent : ∀ block after, '{' :: body = block ++ after → ¬ IsBlock none block) :
    partner? (byteSize front) (front ++ '{' :: body) = .ok none := by
  rw [partner?_append]
  refine follow_of_not_ends Nat.one_pos ?_
  intro ends
  rcases ends with ⟨closed, after, rfl, closes⟩
  exact absent ('{' :: closed) after rfl ((isBlock_cons_iff (by simp)).mpr ⟨rfl, closes⟩)

end RulePruner.Block
