import RulePruner.Text.Basic

/-!
Line ends. Texts are read with every line end written as a newline, and runs of newlines are
capped at two before a stylesheet is written. Both passes run in constant stack; the equations
after them describe the passes one character at a time, and later proofs use only those.
-/

namespace RulePruner.Text

/-- Reads every carriage return, together with a newline right after it, as one newline. -/
def normalize (t : Text) : Text := go [] t
where
  /-- Reads on after what is already read, which is held in reverse. -/
  go (done : Text) : Text → Text
    | [] => done.reverse
    | '\r' :: '\n' :: rest => go ('\n' :: done) rest
    | c :: rest => go ((if c = '\r' then '\n' else c) :: done) rest

/-- Keeps at most `room` newlines of the run at the start of a text, and two of each later run. -/
def capNewlines (room : Nat) (t : Text) : Text := go room [] t
where
  /-- Reads on after what is already kept, which is held in reverse. -/
  go (room : Nat) (done : Text) : Text → Text
    | [] => done.reverse
    | c :: rest =>
      if c = '\n' then
        match room with
        | 0 => go 0 done rest
        | room + 1 => go room (c :: done) rest
      else go 2 (c :: done) rest

/-- Caps every run of newlines at two. -/
def collapse (t : Text) : Text := capNewlines 2 t

private theorem normalize_go_append (done earlier t : Text) :
    normalize.go (done ++ earlier) t = earlier.reverse ++ normalize.go done t := by
  fun_induction normalize.go done t with
  | case1 done => simp [normalize.go]
  | case2 done rest ih => rw [normalize.go, ← ih, List.cons_append]
  | case3 done c rest notPair ih =>
    rw [normalize.go.eq_3 _ _ _ notPair, ← ih, List.cons_append]

@[simp] theorem normalize_nil : normalize [] = [] := rfl

theorem normalize_pair (rest : Text) :
    normalize ('\r' :: '\n' :: rest) = '\n' :: normalize rest :=
  normalize_go_append [] ['\n'] rest

theorem normalize_return (rest : Text) (notNewline : rest.head? ≠ some '\n') :
    normalize ('\r' :: rest) = '\n' :: normalize rest := by
  have step : normalize.go [] ('\r' :: rest) = normalize.go ['\n'] rest := by
    cases rest with
    | nil => rfl
    | cons c rest =>
      have other : c ≠ '\n' := by simpa using notNewline
      rw [normalize.go.eq_3 _ _ _ (by simpa using other)]
      simp
  exact step.trans (normalize_go_append [] ['\n'] rest)

theorem normalize_other {c : Char} (rest : Text) (other : c ≠ '\r') :
    normalize (c :: rest) = c :: normalize rest := by
  have step : normalize.go [] (c :: rest) = normalize.go [c] rest := by
    rw [normalize.go.eq_3 _ _ _ (by simp [other]), if_neg other]
  exact step.trans (normalize_go_append [] [c] rest)

private theorem capNewlines_go_append (room : Nat) (done earlier t : Text) :
    capNewlines.go room (done ++ earlier) t =
      earlier.reverse ++ capNewlines.go room done t := by
  fun_induction capNewlines.go room done t with
  | case1 => simp [capNewlines.go]
  | case2 done rest ih => simpa [capNewlines.go] using ih
  | case3 done rest room ih => simpa [capNewlines.go] using ih
  | case4 room done c rest other ih => simpa [capNewlines.go, other] using ih

@[simp] theorem capNewlines_nil (room : Nat) : capNewlines room [] = [] := rfl

theorem capNewlines_zero_newline (rest : Text) :
    capNewlines 0 ('\n' :: rest) = capNewlines 0 rest := rfl

theorem capNewlines_succ_newline (room : Nat) (rest : Text) :
    capNewlines (room + 1) ('\n' :: rest) = '\n' :: capNewlines room rest :=
  capNewlines_go_append room [] ['\n'] rest

theorem capNewlines_other {c : Char} (room : Nat) (rest : Text) (other : c ≠ '\n') :
    capNewlines room (c :: rest) = c :: capNewlines 2 rest := by
  have step : capNewlines.go room [] (c :: rest) = capNewlines.go 2 [c] rest := by
    simp [capNewlines.go, other]
  exact step.trans (capNewlines_go_append 2 [] [c] rest)

end RulePruner.Text
