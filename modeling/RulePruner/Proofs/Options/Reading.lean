import Mathlib.Tactic.ByContra
import RulePruner.Options.Parser

/-!
# What the reading of a command line does

A command line that asks for a run is read argument by argument. An argument is a flag with its
value, a flag whose value comes next, a flag without a value, or the value of the flag before it
(`Reading.Step`). The main statement is `Reading.readAll_eq_run_iff`.
-/

namespace RulePruner

namespace Flag

theorem name_injective {flag flag' : Flag} (same : flag.name.toList = flag'.name.toList) :
    flag = flag' := by
  cases flag <;> cases flag' <;> simp [name] at same ⊢

theorem equals_not_mem_name (flag : Flag) : '=' ∉ flag.name.toList := by
  cases flag <;> decide

theorem exists_name_eq_cons (flag : Flag) : ∃ c rest, flag.name.toList = c :: rest := by
  cases flag <;> exact ⟨_, _, rfl⟩

theorem toList_written (flag : Flag) : flag.written.toList = '-' :: '-' :: flag.name.toList := by
  rw [written, String.toList_append]
  rfl

theorem takeWhile_name (flag : Flag) :
    flag.name.toList.takeWhile (· ≠ '=') = flag.name.toList ∧
      flag.name.toList.dropWhile (· ≠ '=') = [] := by
  cases flag <;> decide

theorem takeWhile_name_append (flag : Flag) (value : Text) :
    (flag.name.toList ++ '=' :: value).takeWhile (· ≠ '=') = flag.name.toList ∧
      (flag.name.toList ++ '=' :: value).dropWhile (· ≠ '=') = '=' :: value := by
  have plain : ∀ c ∈ flag.name.toList, decide (c ≠ '=') = true := by
    intro c member
    rw [decide_eq_true_eq]
    rintro rfl
    exact flag.equals_not_mem_name member
  rw [List.takeWhile_append_of_pos plain, List.dropWhile_append_of_pos plain]
  simp

end Flag

theorem Interface.flag?_eq_some_iff {interface : Interface} {name : Text} {flag : Flag} :
    interface.flag? name = some flag ↔ flag ∈ interface.flags ∧ flag.name.toList = name := by
  constructor
  · intro found
    exact ⟨List.mem_of_find?_eq_some found, by simpa using List.find?_some found⟩
  · rintro ⟨member, rfl⟩
    cases found : interface.flag? flag.name.toList with
    | none => simpa using List.find?_eq_none.mp found flag member
    | some flag' =>
      have same : flag'.name.toList = flag.name.toList := by simpa using List.find?_some found
      rw [Flag.name_injective same]

namespace Options

variable {interface : Interface} {flag : Flag} {value : Text} {arguments : List Text}

namespace Reading

variable {reading settled after last : Reading} {options : Options} {json : Bool}

/-- Whether an argument can only be the value of a flag. -/
def Bare (argument : Text) : Prop := argument = ['-'] ∨ argument.head? ≠ some '-'

theorem exists_of_not_bare {argument : Text} (dashed : ¬ Bare argument) :
    ∃ c tail, argument = '-' :: c :: tail := by
  rcases argument with - | ⟨first, - | ⟨c, tail⟩⟩
  · simp [Bare] at dashed
  · simp [Bare] at dashed
  · obtain rfl : first = '-' := by
      by_contra other
      simp [Bare, other] at dashed
    exact ⟨c, tail, rfl⟩

/-- What reading one argument can do, where it is not refused and does not ask for help. -/
inductive Step (interface : Interface) (reading : Reading) : Text → Reading → Prop
  /-- A flag is set to the value behind an equals sign. -/
  | assigned {flag : Flag} {value : Text} {settled after : Reading} : flag ∈ interface.flags →
      flag.takesValue = true → reading.settle = .ok settled →
      settled.assign flag value = .ok after →
      Step interface reading (flag.written.toList ++ '=' :: value) after
  /-- The value of a flag is to come. -/
  | announced {flag : Flag} {settled : Reading} : flag ∈ interface.flags →
      flag.takesValue = true → reading.settle = .ok settled →
      Step interface reading flag.written.toList { settled with waiting := some (flag, none) }
  /-- A flag without a value is set. -/
  | switched {flag : Flag} {settled after : Reading} : flag ∈ interface.flags →
      flag.takesValue = false → flag ≠ .help → reading.settle = .ok settled →
      settled.turnOn flag = .ok after → Step interface reading flag.written.toList after
  /-- The value that a flag was waiting for comes. -/
  | supplied {flag : Flag} {argument : Text} : reading.waiting = some (flag, none) →
      Bare argument →
      Step interface reading argument { reading with waiting := some (flag, some argument) }

/-- What reading arguments one after the other can do. -/
inductive Steps (interface : Interface) : Reading → List Text → Reading → Prop
  | done (reading : Reading) : Steps interface reading [] reading
  | next {reading middle last : Reading} {argument : Text} {arguments : List Text} :
      Step interface reading argument middle → Steps interface middle arguments last →
      Steps interface reading (argument :: arguments) last

/-- Both halves of a reading that succeeds succeed. -/
theorem bind_eq_ok_iff {α β : Type} {x : Except UsageError α} {f : α → Except UsageError β} {b : β} :
    (x >>= f) = .ok b ↔ ∃ a, x = .ok a ∧ f a = .ok b := by
  cases x <;> simp [bind, Except.bind]

/-- A text that starts with a name up to its first equals sign ends there, or has a value. -/
theorem eq_of_takeWhile {name body : Text} (found : body.takeWhile (· ≠ '=') = name) :
    body = name ∨ ∃ value, body = name ++ '=' :: value := by
  have whole := List.takeWhile_append_dropWhile (p := fun c => decide (c ≠ '=')) (l := body)
  rw [found] at whole
  cases rest : body.dropWhile (· ≠ '=') with
  | nil =>
    rw [rest, List.append_nil] at whole
    exact Or.inl whole.symm
  | cons c value =>
    have first := List.head?_dropWhile_not (fun c => decide (c ≠ '=')) body
    simp only [rest, List.head?_cons, decide_eq_false_iff_not, not_not] at first
    rw [rest, first] at whole
    exact Or.inr ⟨value, whole.symm⟩

theorem readAll_attached (member : flag ∈ interface.flags) :
    reading.readAll interface ((flag.written.toList ++ '=' :: value) :: arguments) =
      if flag.takesValue then do
        let settled ← reading.settle
        let assigned ← settled.assign flag value
        assigned.readAll interface arguments
      else .error (.valueUnexpected flag value reading.used) := by
  have found := Interface.flag?_eq_some_iff.mpr ⟨member, rfl⟩
  obtain ⟨name, rest⟩ := flag.takeWhile_name_append value
  rw [Flag.toList_written, List.cons_append, List.cons_append, readAll]
  · simp only [name, rest, found]
  · simp
  · simp

theorem readAll_written (member : flag ∈ interface.flags) :
    reading.readAll interface (flag.written.toList :: arguments) = (do
      let settled ← reading.settle
      if flag.takesValue then
        readAll interface { settled with waiting := some (flag, none) } arguments
      else if flag = .help then return .help true
      else
        let switched ← settled.turnOn flag
        switched.readAll interface arguments) := by
  have found := Interface.flag?_eq_some_iff.mpr ⟨member, rfl⟩
  obtain ⟨name, rest⟩ := flag.takeWhile_name
  obtain ⟨c, tail, proper⟩ := flag.exists_name_eq_cons
  rw [Flag.toList_written, readAll]
  · simp only [name, rest, found]
  · simp [proper]
  · simp [proper]

theorem readAll_supplied {argument : Text} (bare : Bare argument)
    (waits : reading.waiting = some (flag, none)) :
    reading.readAll interface (argument :: arguments) =
      readAll interface { reading with waiting := some (flag, some argument) } arguments := by
  rw [readAll, waits]
  all_goals
    intros
    subst_vars
    simp [Bare] at bare

theorem exists_waiting_of_bare {argument : Text} (bare : Bare argument)
    (asked : reading.readAll interface (argument :: arguments) = .ok (.run options json)) :
    ∃ flag, reading.waiting = some (flag, none) := by
  rw [readAll] at asked
  · split at asked
    · next flag waits => exact ⟨flag, waits⟩
    · cases asked
  all_goals
    intros
    subst_vars
    simp [Bare] at bare

/-- A flag that is not known and the short form of help ask for no run. -/
theorem readAll_ne_run {c : Char} {tail : Text} (proper : c ≠ '-' ∨ tail ≠ [])
    (unknown : c = '-' → interface.flag? (tail.takeWhile (· ≠ '=')) = none) :
    reading.readAll interface (('-' :: c :: tail) :: arguments) ≠ .ok (.run options json) := by
  by_cases dash : c = '-'
  · subst dash
    have more : tail ≠ [] := by simpa using proper
    rw [readAll, unknown rfl]
    · simp
    all_goals simp [more]
  · rw [readAll]
    · by_cases short : c = 'h'
      · cases reading.settle <;> simp [short, bind, Except.bind, pure, Except.pure]
      · simp [short]
    all_goals simp [dash]

/-- An argument of a run is a flag, with a value or without one, or it is the value of a flag. -/
theorem argument_cases {argument : Text} (proper : argument ≠ ['-', '-'])
    (asked : reading.readAll interface (argument :: arguments) = .ok (.run options json)) :
    (∃ flag ∈ interface.flags, argument = flag.written.toList ∨
        ∃ value, argument = flag.written.toList ++ '=' :: value) ∨ Bare argument := by
  by_cases bare : Bare argument
  · exact Or.inr bare
  · obtain ⟨c, tail, rfl⟩ := exists_of_not_bare bare
    -- What starts with a dash and is neither refused nor help names a flag.
    have known : ¬ (c = '-' → interface.flag? (tail.takeWhile (· ≠ '=')) = none) :=
      fun unknown => readAll_ne_run (by simpa [or_iff_not_imp_left] using proper) unknown asked
    obtain ⟨rfl, found⟩ := Classical.not_imp.mp known
    obtain ⟨flag, found⟩ := Option.ne_none_iff_exists'.mp found
    obtain ⟨member, name⟩ := Interface.flag?_eq_some_iff.mp found
    refine Or.inl ⟨flag, member, ?_⟩
    rw [Flag.toList_written]
    rcases eq_of_takeWhile name.symm with rfl | ⟨value, rfl⟩
    · exact Or.inl rfl
    · exact Or.inr ⟨value, rfl⟩

/-- A run that is asked for with a first argument is asked for with the others after a step. -/
theorem exists_step_of_readAll {argument : Text} (proper : argument ≠ ['-', '-'])
    (asked : reading.readAll interface (argument :: arguments) = .ok (.run options json)) :
    ∃ after, Step interface reading argument after ∧
      after.readAll interface arguments = .ok (.run options json) := by
  rcases argument_cases proper asked with ⟨flag, member, rfl | ⟨value, rfl⟩⟩ | bare
  · rw [readAll_written member, bind_eq_ok_iff] at asked
    obtain ⟨settled, settle, asked⟩ := asked
    by_cases valued : flag.takesValue = true
    · rw [if_pos valued] at asked
      exact ⟨_, .announced member valued settle, asked⟩
    · rw [if_neg valued] at asked
      rw [Bool.not_eq_true] at valued
      by_cases help : flag = .help
      · simp [help, pure, Except.pure] at asked
      · rw [if_neg help, bind_eq_ok_iff] at asked
        obtain ⟨switched, turned, asked⟩ := asked
        exact ⟨switched, .switched member valued help settle turned, asked⟩
  · rw [readAll_attached member] at asked
    by_cases valued : flag.takesValue = true
    · simp only [if_pos valued, bind_eq_ok_iff] at asked
      obtain ⟨settled, settle, assigned, assign, asked⟩ := asked
      exact ⟨assigned, .assigned member valued settle assign, asked⟩
    · simp [valued] at asked
  · obtain ⟨flag, waits⟩ := exists_waiting_of_bare bare asked
    rw [readAll_supplied bare waits] at asked
    exact ⟨_, .supplied waits bare, asked⟩

/-- Reading goes on from what a step leaves. -/
theorem Step.readAll {argument : Text} (step : Step interface reading argument after)
    (arguments : List Text) :
    reading.readAll interface (argument :: arguments) = after.readAll interface arguments := by
  cases step with
  | assigned member valued settle assign =>
    rw [readAll_attached member, if_pos valued, settle]
    simp only [bind, Except.bind, assign]
  | announced member valued settle =>
    rw [readAll_written member, settle]
    simp only [bind, Except.bind, if_pos valued]
  | switched member valueless proper settle turned =>
    rw [readAll_written member, settle]
    simp [bind, Except.bind, valueless, proper, turned]
  | supplied waits bare => rw [readAll_supplied bare waits]

theorem readAll_nil_eq_run_iff :
    (do let settled ← reading.settle
        return Request.run settled.options settled.json) = .ok (.run options json) ↔
      ∃ settled, reading.settle = .ok settled ∧ settled.options = options ∧ settled.json = json := by
  simp [bind_eq_ok_iff, pure, Except.pure]

theorem Steps.readAll {front : List Text} (steps : Steps interface reading front last)
    (arguments : List Text) :
    reading.readAll interface (front ++ arguments) = last.readAll interface arguments := by
  induction steps with
  | done => rfl
  | next step later ih => exact (step.readAll _).trans ih

/-- Arguments ask for a run just if there are steps through them, up to the two dashes that may
stand at the end, and the last value that is given can be set. -/
theorem readAll_eq_run_iff :
    reading.readAll interface arguments = .ok (.run options json) ↔
      ∃ front last settled, (arguments = front ∨ arguments = front ++ [['-', '-']]) ∧
        Steps interface reading front last ∧ last.settle = .ok settled ∧
        settled.options = options ∧ settled.json = json := by
  constructor
  · intro asked
    induction arguments generalizing reading with
    | nil =>
      rw [readAll, readAll_nil_eq_run_iff] at asked
      obtain ⟨settled, reached⟩ := asked
      exact ⟨[], reading, settled, Or.inl rfl, .done reading, reached⟩
    | cons argument arguments ih =>
      by_cases dashes : argument = ['-', '-']
      · subst dashes
        cases arguments with
        | nil =>
          rw [readAll, readAll_nil_eq_run_iff] at asked
          obtain ⟨settled, reached⟩ := asked
          exact ⟨[], reading, settled, Or.inr rfl, .done reading, reached⟩
        | cons => simp [readAll] at asked
      · obtain ⟨after, step, asked⟩ := exists_step_of_readAll dashes asked
        obtain ⟨front, last, settled, whole, steps, reached⟩ := ih asked
        refine ⟨argument :: front, last, settled, ?_, .next step steps, reached⟩
        exact whole.imp (congrArg _) (congrArg _)
  · rintro ⟨front, last, settled, rfl | rfl, steps, reached⟩
    · have whole := steps.readAll []
      rw [List.append_nil] at whole
      rw [whole, readAll, readAll_nil_eq_run_iff]
      exact ⟨settled, reached⟩
    · rw [steps.readAll, readAll, readAll_nil_eq_run_iff]
      exact ⟨settled, reached⟩

end Reading

end Options

end RulePruner
