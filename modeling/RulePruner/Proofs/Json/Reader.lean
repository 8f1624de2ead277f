import RulePruner.Proofs.Json.Lexer

/-!
# Reading JSON

The reader of values takes one token at a time and keeps the arrays and objects that are open. The
tokens it has taken are those of its state (`Json.Assembler.tokens_step`), and from any state in
which a value is due it takes the tokens of a value as that value (`Json.Assembler.reads`). So the
reader reads just the texts of the grammar, each as the value that it stands for
(`Json.read?_eq_some_iff`).
-/

namespace RulePruner.Json

/-- An array or an object that is open, and of which a value is being read. -/
inductive Open where
  | array (items : List Json)
  | object (fields : List (Text × Json)) (key : Text)
  deriving Repr

/-- What is due in the innermost of the arrays and objects that are open; the others are listed from
the inside. -/
inductive Assembler where
  | due (outer : List Open)
  /-- The first item of an array, or its end. -/
  | firstItem (outer : List Open)
  /-- The first field of an object, or its end. -/
  | firstField (outer : List Open)
  /-- The next field of an object. -/
  | field (fields : List (Text × Json)) (outer : List Open)
  | colon (fields : List (Text × Json)) (key : Text) (outer : List Open)
  /-- A comma behind an item, or the end of the array. -/
  | afterItem (items : List Json) (last : Json) (outer : List Open)
  /-- A comma behind a field, or the end of the object. -/
  | afterField (fields : List (Text × Json)) (last : Text × Json) (outer : List Open)
  /-- Nothing. -/
  | complete (value : Json)
  deriving Repr

namespace Assembler

/-- The state behind a value. -/
def behind (value : Json) : List Open → Assembler
  | [] => complete value
  | .array items :: outer => afterItem items value outer
  | .object fields key :: outer => afterField fields (key, value) outer

/-- The state behind the first token of a value. -/
def start (outer : List Open) : Token → Option Assembler
  | .null => some (behind .null outer)
  | .bool value => some (behind (.bool value) outer)
  | .number token => some (behind (.number token) outer)
  | .string value => some (behind (.string value) outer)
  | .mark .openArray => some (firstItem outer)
  | .mark .openObject => some (firstField outer)
  | .mark _ => none

/-- The state one token on. -/
def step : Assembler → Token → Option Assembler
  | due outer, token => start outer token
  | firstItem outer, token =>
    if token = .mark .closeArray then some (behind (.array []) outer)
    else start (.array [] :: outer) token
  | firstField outer, .string key => some (colon [] key outer)
  | firstField outer, .mark .closeObject => some (behind (.object []) outer)
  | field fields outer, .string key => some (colon fields key outer)
  | colon fields key outer, .mark .colon => some (due (.object fields key :: outer))
  | afterItem items last outer, .mark .comma => some (due (.array (items ++ [last]) :: outer))
  | afterItem items last outer, .mark .closeArray => some (behind (.array (items ++ [last])) outer)
  | afterField fields last outer, .mark .comma => some (field (fields ++ [last]) outer)
  | afterField fields last outer, .mark .closeObject =>
    some (behind (.object (fields ++ [last])) outer)
  | _, _ => none

/-- The value that was read, if it is complete. -/
def finish? : Assembler → Option Json
  | complete value => some value
  | _ => none

end Assembler

/-- The value with the given tokens. -/
def assemble? (tokens : List Token) : Option Json :=
  (tokens.foldlM Assembler.step (.due [])).bind Assembler.finish?

/-- The value that a text stands for. -/
def read? (t : Text) : Option Json := (lex? t).bind assemble?

/-- The tokens of an array or object that is open. -/
def Open.tokens : Open → List Token
  | array items => .mark .openArray :: (itemTokens items).flatMap (· ++ [.mark .comma])
  | object fields key =>
    .mark .openObject :: (fieldTokens fields).flatMap (· ++ [.mark .comma]) ++ [.string key, .mark .colon]

namespace Assembler

/-- The tokens of what is open, from the outside. -/
def outerTokens : List Open → List Token
  | [] => []
  | inner :: outer => outerTokens outer ++ inner.tokens

/-- The tokens that lead to a state. -/
def tokens : Assembler → List Token
  | due outer => outerTokens outer
  | firstItem outer => outerTokens outer ++ [.mark .openArray]
  | firstField outer => outerTokens outer ++ [.mark .openObject]
  | field fields outer =>
    outerTokens outer ++ .mark .openObject :: (fieldTokens fields).flatMap (· ++ [.mark .comma])
  | colon fields key outer =>
    outerTokens outer ++ .mark .openObject :: (fieldTokens fields).flatMap (· ++ [.mark .comma]) ++
      [.string key]
  | afterItem items last outer =>
    outerTokens outer ++ (Open.array items).tokens ++ last.tokens
  | afterField fields last outer =>
    outerTokens outer ++ (Open.object fields last.1).tokens ++ last.2.tokens
  | complete value => value.tokens

end Assembler

variable {token : Token} {later : List Token} {value : Json} {t : Text}

theorem intercalate_concat (parts : List (List Token)) (part : List Token) :
    [Token.mark .comma].intercalate (parts ++ [part]) =
      parts.flatMap (· ++ [.mark .comma]) ++ part := by
  induction parts with
  | nil => simp
  | cons first parts ih =>
    rw [List.cons_append, List.intercalate_cons_of_ne_nil (by simp), ih]
    simp

namespace Assembler

variable {state next : Assembler} {outer : List Open}

theorem tokens_behind (value : Json) (outer : List Open) :
    (behind value outer).tokens = outerTokens outer ++ value.tokens := by
  cases outer with
  | nil => rfl
  | cons inner outer => cases inner <;> rfl

theorem tokens_start (started : start outer token = some next) :
    next.tokens = outerTokens outer ++ [token] := by
  cases token with
  | mark m => cases m <;> cases started <;> rfl
  | null | bool | number | string =>
    obtain rfl := Option.some.inj started
    exact tokens_behind _ _

theorem tokens_array_concat (items : List Json) (last : Json) :
    (array (items ++ [last])).tokens =
      (Open.array items).tokens ++ last.tokens ++ [.mark .closeArray] := by
  simp [Json.tokens, Open.tokens, itemTokens_eq_map, intercalate_concat]

theorem tokens_object_concat (fields : List (Text × Json)) (last : Text × Json) :
    (object (fields ++ [last])).tokens =
      (Open.object fields last.1).tokens ++ last.2.tokens ++ [.mark .closeObject] := by
  simp [Json.tokens, Open.tokens, fieldTokens_eq_map, intercalate_concat]

/-- A step adds its token to the tokens of the state. -/
theorem tokens_step (stepped : state.step token = some next) :
    next.tokens = state.tokens ++ [token] := by
  unfold step at stepped
  split at stepped
  · exact tokens_start stepped
  · split at stepped
    · next close =>
      obtain rfl := Option.some.inj stepped
      rw [tokens_behind, close]
      simp [tokens, Json.tokens, itemTokens]
    · rw [tokens_start stepped]
      simp [tokens, outerTokens, Open.tokens, itemTokens]
  · obtain rfl := Option.some.inj stepped
    simp [tokens, fieldTokens]
  · obtain rfl := Option.some.inj stepped
    rw [tokens_behind]
    simp [tokens, Json.tokens, fieldTokens]
  · obtain rfl := Option.some.inj stepped
    simp [tokens]
  · obtain rfl := Option.some.inj stepped
    simp [tokens, outerTokens, Open.tokens]
  · obtain rfl := Option.some.inj stepped
    simp [tokens, outerTokens, Open.tokens, itemTokens_eq_map]
  · obtain rfl := Option.some.inj stepped
    rw [tokens_behind, tokens_array_concat]
    simp [tokens]
  · obtain rfl := Option.some.inj stepped
    simp [tokens, Open.tokens, fieldTokens_eq_map]
  · obtain rfl := Option.some.inj stepped
    rw [tokens_behind, tokens_object_concat]
    simp [tokens]
  · cases stepped

theorem tokens_foldlM (run : later.foldlM step state = some next) :
    next.tokens = state.tokens ++ later := by
  induction later generalizing state with
  | nil =>
    obtain rfl := Option.some.inj run
    rw [List.append_nil]
  | cons token later ih =>
    rw [List.foldlM_cons] at run
    obtain ⟨middle, stepped, run⟩ := Option.bind_eq_some_iff.mp run
    rw [ih run, tokens_step stepped, List.append_assoc, List.singleton_append]

/-- Wherever a value is due, its tokens are taken as the value. -/
def Reads (value : Json) : Prop :=
  ∀ outer, value.tokens.foldlM step (due outer) = some (behind value outer)

variable {items : List Json} {fields : List (Text × Json)}

/-- The items of an array, up to its end. -/
theorem foldlM_items {item : Json} (reads : ∀ value ∈ item :: items, Reads value) (done : List Json)
    (outer : List Open) :
    ([Token.mark .comma].intercalate (itemTokens (item :: items)) ++
      [Token.mark .closeArray]).foldlM step
      (due (.array done :: outer)) = some (behind (array (done ++ item :: items)) outer) := by
  induction items generalizing item done with
  | nil =>
    have first := reads item List.mem_cons_self
    simp [itemTokens, first _, behind, step]
  | cons item' items ih =>
    obtain ⟨first, others⟩ := List.forall_mem_cons.mp reads
    have rest := ih others (done ++ [item])
    rw [itemTokens, itemTokens, List.intercalate_cons_cons, ← itemTokens, List.append_assoc,
      List.append_assoc, List.foldlM_append, first]
    simpa [behind, step] using rest

/-- The fields of an object, up to its end. -/
theorem foldlM_fields {key : Text} {value : Json}
    (reads : ∀ entry ∈ (key, value) :: fields, Reads entry.2)
    (done : List (Text × Json)) (outer : List Open) :
    ([Token.mark .comma].intercalate (fieldTokens ((key, value) :: fields)) ++
      [Token.mark .closeObject]).foldlM step (field done outer) =
      some (behind (object (done ++ (key, value) :: fields)) outer) := by
  induction fields generalizing key value done with
  | nil =>
    have first := reads _ List.mem_cons_self
    simp [fieldTokens, first _, behind, step]
  | cons entry fields ih =>
    obtain ⟨first, others⟩ := List.forall_mem_cons.mp reads
    have rest := ih others (done ++ [(key, value)])
    rw [fieldTokens, fieldTokens, List.intercalate_cons_cons, ← fieldTokens]
    simpa [behind, step, first _] using rest

/-- Where a value may end an array, its first token does not. -/
theorem foldlM_firstItem (value : Json) (later : List Token) (outer : List Open) :
    (value.tokens ++ later).foldlM step (firstItem outer) =
      (value.tokens ++ later).foldlM step (due (.array [] :: outer)) := by
  cases value <;> rfl

theorem reads (value : Json) : Reads value := by
  induction value using Json.induction with
  | null | bool value | number token | string value => exact fun _ => rfl
  | array items ih =>
    intro outer
    cases items with
    | nil => rfl
    | cons item items =>
      obtain ⟨later, split⟩ : ∃ later, [Token.mark .comma].intercalate (itemTokens (item :: items)) ++
          [Token.mark .closeArray] = item.tokens ++ later := by
        cases items with
        | nil => exact ⟨[.mark .closeArray], by simp [itemTokens]⟩
        | cons item' items => exact ⟨_, by rw [itemTokens, itemTokens, List.intercalate_cons_cons,
            List.append_assoc, List.append_assoc]⟩
      have inside := foldlM_items ih [] outer
      rw [split, ← foldlM_firstItem] at inside
      rw [Json.tokens, split]
      exact inside
  | object fields ih =>
    intro outer
    cases fields with
    | nil => rfl
    | cons entry fields =>
      obtain ⟨key, value⟩ := entry
      have inside := foldlM_fields ih [] outer
      rw [fieldTokens, List.intercalate_cons_cons_left] at inside
      rw [Json.tokens, fieldTokens, List.intercalate_cons_cons_left]
      exact inside

end Assembler

/-- Tokens are assembled to a value just if they are its tokens. -/
theorem assemble?_eq_some_iff {tokens : List Token} :
    assemble? tokens = some value ↔ tokens = value.tokens := by
  constructor
  · intro found
    obtain ⟨state, run, finished⟩ := Option.bind_eq_some_iff.mp found
    have taken := Assembler.tokens_foldlM run
    cases state with
    | complete value =>
      obtain rfl := Option.some.inj finished
      exact taken.symm
    | _ => cases finished
  · rintro rfl
    rw [assemble?, Assembler.reads]
    rfl

/-- The reader reads the texts of the grammar, each as the value that it stands for, and no others.
-/
theorem read?_eq_some_iff : read? t = some value ↔ TextOf value t := by
  have tokens := lex?_eq_some_iff (t := t) (isChain_tokens value)
  constructor
  · intro found
    obtain ⟨found', lexed, assembled⟩ := Option.bind_eq_some_iff.mp found
    obtain rfl := assemble?_eq_some_iff.mp assembled
    exact tokens.mp lexed
  · intro layout
    exact Option.bind_eq_some_iff.mpr ⟨_, tokens.mpr layout, assemble?_eq_some_iff.mpr rfl⟩

-- The two escapes of a pair of surrogates are one character.
example : read? "[\"\\ud83d\\uDE00\", 1.5E+3, null]".toList =
    some (array [string ['😀'], number "1.5E+3".toList, null]) := by rfl

-- No entry follows the comma, the number starts with zero, the surrogate is alone.
example : ["[1,]", "01", "\"\\ud83d\""].all fun t => (read? t.toList).isNone := by decide +kernel

/-- A text stands for at most one value. -/
theorem TextOf.unique {value' : Json} (first : TextOf value t) (second : TextOf value' t) :
    value = value' := by
  rw [← read?_eq_some_iff] at first second
  exact Option.some.inj (first.symm.trans second)

end RulePruner.Json
