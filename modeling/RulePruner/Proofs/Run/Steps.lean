import RulePruner.Proofs.Removal
import RulePruner.Proofs.Sink
import RulePruner.Run.Pass

/-!
# The steps of a pass

A pass through a class list is a chain of steps, one for each class it comes to, between states that
hold the stylesheet, the classes removed and the sink; what is told to the log is left out. The
stylesheet that a finished chain leaves is told by `Rule.withoutInTurn`, and a chain that removes
nothing leaves everything as it is.
-/

namespace RulePruner

/-- The class that an event tells of as having had rules, and their number. -/
def Event.tally? : Event → Option (Text × Nat)
  | .matched name count => some (name, count)
  | _ => none

/-- The classes that had rules and the number of rules of each, as the log was told. -/
def Trace.tallies (trace : Trace) : List (Text × Nat) :=
  trace.events.toList.filterMap Event.tally?

@[simp] theorem Trace.sink_tell (trace : Trace) (events : List Event) :
    (trace.tell events).sink = trace.sink := rfl

@[simp] theorem Trace.tallies_tell (trace : Trace) (events : List Event) :
    (trace.tell events).tallies = trace.tallies ++ events.filterMap Event.tally? := by
  simp [tell, tallies]

theorem Log.tallies_normalize (t : Text) : (Log.normalize t).filterMap Event.tally? = [] := by
  unfold normalize
  split <;> rfl

theorem Log.tallies_parse (t : Text) : (Log.parse t).filterMap Event.tally? = [] := by
  simp [parse, Event.tally?]

theorem Log.tallies_collapse (t : Text) : (Log.collapse t).filterMap Event.tally? = [] := rfl

namespace Pass

/-- What a pass has done, apart from what it told its log. -/
structure State where
  css : Text
  removed : List Text
  sink : Sink

/-- The state of a pass. -/
def state (pass : Pass) : State := ⟨pass.css, pass.removed, pass.trace.sink⟩

/-- What handling one class can do. -/
inductive Step (strategy : Strategy) (name : Text) (state : State) : State → Option Failure → Prop
  /-- The class is refused. -/
  | oversized : Rule.supports strategy name = false →
      Step strategy name state state (some (.oversized name))
  /-- The class has no rule. -/
  | absent : Rule.supports strategy name = true → ¬ Rule.Occurs strategy name state.css →
      Step strategy name state state none
  /-- The class has rules, and its progress line is refused. -/
  | unreported (sink : Sink) (fault : Fault) : Rule.supports strategy name = true →
      Rule.Occurs strategy name state.css →
      state.sink.writeAll [Report.removing name] = (sink, some fault) →
      Step strategy name state { state with sink := sink } (some (.unreported fault))
  /-- The class has rules, and they are cut out. -/
  | removed (sink : Sink) : Rule.supports strategy name = true →
      Rule.Occurs strategy name state.css →
      state.sink.writeAll [Report.removing name] = (sink, none) →
      Step strategy name state
        ⟨Rule.without strategy [name] state.css, state.removed ++ [name], sink⟩ none

/-- What handling classes one after the other can do. -/
inductive Steps (strategy : Strategy) : List Text → State → State → Option Failure → Prop
  | done (state : State) : Steps strategy [] state state none
  | failed {name : Text} {names : List Text} {state after : State} {failure : Failure} :
      Step strategy name state after (some failure) →
      Steps strategy (name :: names) state after (some failure)
  | next {name : Text} {names : List Text} {state middle after : State}
      {failure : Option Failure} :
      Step strategy name state middle none → Steps strategy names middle after failure →
      Steps strategy (name :: names) state after failure

variable {strategy : Strategy}

/-- Handling a class is a step. -/
theorem handle_step (strategy : Strategy) (name : Text) (pass : Pass) :
    Step strategy name pass.state (pass.handle strategy name).1.state
      (pass.handle strategy name).2 := by
  unfold handle
  by_cases supported : Rule.supports strategy name = true
  · by_cases occurs : Rule.Occurs strategy name pass.css
    · obtain ⟨removal, removed, css, -⟩ := Rule.remove_of_occurs supported occurs
      rw [removed]
      cases written : pass.trace.sink.writeAll [Report.removing name] with
      | mk sink refusal =>
        simp only [tell, Trace.tell, written]
        cases refusal with
        | some fault => exact .unreported sink fault supported occurs written
        | none =>
          simp only [state, css]
          exact .removed sink supported occurs written
    · rw [Rule.remove_of_not_occurs supported occurs]
      exact .absent supported occurs
  · rw [Bool.not_eq_true] at supported
    rw [Rule.remove_of_oversized supported]
    exact .oversized supported

theorem handleAll_steps (strategy : Strategy) (names : List Text) (pass : Pass) :
    Steps strategy names pass.state (handleAll strategy names pass).1.state
      (handleAll strategy names pass).2 := by
  induction names generalizing pass with
  | nil => exact .done pass.state
  | cons name names ih =>
    have step := handle_step strategy name pass
    rw [handleAll]
    cases handled : pass.handle strategy name with
    | mk after failure =>
      rw [handled] at step
      cases failure with
      | some failure => exact .failed step
      | none => exact .next step (ih after)

/-- A state and a class leave only one step to do. -/
theorem Step.deterministic {name : Text} {state after after' : State}
    {failure failure' : Option Failure} (step : Step strategy name state after failure)
    (step' : Step strategy name state after' failure') : after = after' ∧ failure = failure' := by
  cases step <;> cases step' <;> simp_all

/-- A state and a list of classes leave only one chain of steps to do. -/
theorem Steps.deterministic {names : List Text} {state after after' : State}
    {failure failure' : Option Failure} (steps : Steps strategy names state after failure)
    (steps' : Steps strategy names state after' failure') :
    after = after' ∧ failure = failure' := by
  induction steps with
  | done state =>
    cases steps'
    exact ⟨rfl, rfl⟩
  | failed step =>
    cases steps' with
    | failed step' => exact step.deterministic step'
    | next step' later' => simpa using (step.deterministic step').2
  | next step later ih =>
    cases steps' with
    | failed step' => simpa using (step.deterministic step').2
    | next step' later' =>
      obtain ⟨rfl, -⟩ := step.deterministic step'
      exact ih later'

/-- A step that succeeds leaves the stylesheet without the rules of its class. -/
theorem Step.of_none {name : Text} {state after : State}
    (step : Step strategy name state after none) :
    Rule.supports strategy name = true ∧ after.css = Rule.without strategy [name] state.css ∧
      ((after = state ∧ ¬ Rule.Occurs strategy name state.css) ∨
        after.removed = state.removed ++ [name]) := by
  cases step with
  | absent supported absent =>
    exact ⟨supported, (Rule.without_of_not_occurs absent).symm, Or.inl ⟨rfl, absent⟩⟩
  | removed sink supported occurs written => exact ⟨supported, rfl, Or.inr rfl⟩

/-- A chain of steps that succeeds starts with a step that does. -/
theorem Steps.of_cons {name : Text} {names : List Text} {state after : State}
    (steps : Steps strategy (name :: names) state after none) :
    ∃ middle, Step strategy name state middle none ∧ Steps strategy names middle after none := by
  cases steps with
  | next step later => exact ⟨_, step, later⟩

/-- A chain of steps that succeeds cuts the classes out one after the other. -/
theorem Steps.css_eq {names : List Text} {state after : State}
    (steps : Steps strategy names state after none) :
    after.css = Rule.withoutInTurn strategy names state.css ∧
      ∀ name ∈ names, Rule.supports strategy name = true := by
  induction names generalizing state with
  | nil =>
    cases steps
    exact ⟨rfl, by simp⟩
  | cons name names ih =>
    obtain ⟨middle, step, later⟩ := steps.of_cons
    obtain ⟨supported, css, -⟩ := step.of_none
    obtain ⟨left, supportedLater⟩ := ih later
    refine ⟨?_, List.forall_mem_cons.mpr ⟨supported, supportedLater⟩⟩
    rw [left, css, Rule.withoutInTurn]

/-- The classes removed are kept in mind. -/
theorem Steps.removed_front {names : List Text} {state after : State}
    (steps : Steps strategy names state after none) : state.removed <+: after.removed := by
  induction names generalizing state with
  | nil =>
    cases steps
    exact List.prefix_refl _
  | cons name names ih =>
    obtain ⟨middle, step, later⟩ := steps.of_cons
    rcases step.of_none.2.2 with ⟨rfl, -⟩ | removed
    · exact ih later
    · exact (removed ▸ List.prefix_append _ _).trans (ih later)

/-- A chain of steps that removes no class finds none and leaves everything as it is. -/
theorem Steps.eq_of_removed_eq {names : List Text} {state after : State}
    (steps : Steps strategy names state after none) (same : after.removed = state.removed) :
    after = state ∧ ∀ name ∈ names, ¬ Rule.Occurs strategy name state.css := by
  induction names generalizing state with
  | nil =>
    cases steps
    exact ⟨rfl, by simp⟩
  | cons name names ih =>
    obtain ⟨middle, step, later⟩ := steps.of_cons
    rcases step.of_none.2.2 with ⟨rfl, absent⟩ | removed
    · obtain ⟨rfl, absentLater⟩ := ih later same
      exact ⟨rfl, List.forall_mem_cons.mpr ⟨absent, absentLater⟩⟩
    · have longer := later.removed_front.length_le
      rw [same, removed, List.length_append, List.length_singleton] at longer
      omega

/-- Where no class is refused and none has a rule, a chain of steps does nothing. -/
theorem Steps.of_absent {names : List Text} {state after : State} {failure : Option Failure}
    (steps : Steps strategy names state after failure)
    (supported : ∀ name ∈ names, Rule.supports strategy name = true)
    (absent : ∀ name ∈ names, ¬ Rule.Occurs strategy name state.css) :
    after = state ∧ failure = none := by
  induction steps with
  | done state => exact ⟨rfl, rfl⟩
  | failed step =>
    obtain ⟨supportedFirst, -⟩ := List.forall_mem_cons.mp supported
    obtain ⟨absentFirst, -⟩ := List.forall_mem_cons.mp absent
    cases step with
    | oversized refused => simp [supportedFirst] at refused
    | unreported sink fault _ occurs => exact absurd occurs absentFirst
  | next step later ih =>
    obtain ⟨-, supportedLater⟩ := List.forall_mem_cons.mp supported
    obtain ⟨absentFirst, absentLater⟩ := List.forall_mem_cons.mp absent
    cases step with
    | absent => exact ih supportedLater absentLater
    | removed sink _ occurs => exact absurd occurs absentFirst

/-- Only a refused class stops a chain of steps whose sink has no limit. -/
theorem Steps.of_unlimited {names : List Text} {state after : State} {failure : Option Failure}
    (steps : Steps strategy names state after failure)
    (supported : ∀ name ∈ names, Rule.supports strategy name = true)
    (unlimited : state.sink.limit = none) : failure = none := by
  induction steps with
  | done state => rfl
  | @failed name _ _ _ _ step =>
    obtain ⟨supportedFirst, -⟩ := List.forall_mem_cons.mp supported
    cases step with
    | oversized refused => simp [supportedFirst] at refused
    | unreported sink fault _ _ written =>
      have taken := Sink.writeAll_unlimited [Report.removing name] unlimited
      rw [written] at taken
      simp at taken
  | @next name _ _ _ _ _ step later ih =>
    obtain ⟨-, supportedLater⟩ := List.forall_mem_cons.mp supported
    apply ih supportedLater
    cases step with
    | absent => exact unlimited
    | removed sink _ _ written =>
      have taken := Sink.writeAll_unlimited [Report.removing name] unlimited
      rw [written] at taken
      exact taken.2

/-- A step goes the same way on every sink without a limit. -/
theorem Step.exists_of_unlimited {name : Text} {state after : State} {failure : Option Failure}
    (step : Step strategy name state after failure) (unlimited : state.sink.limit = none)
    {sink : Sink} (unlimited' : sink.limit = none) :
    after.sink.limit = none ∧ ∃ sink' : Sink, sink'.limit = none ∧
      Step strategy name { state with sink := sink } { after with sink := sink' } failure := by
  have written := Sink.writeAll_unlimited [Report.removing name] unlimited
  have written' := Sink.writeAll_unlimited [Report.removing name] unlimited'
  cases step with
  | oversized refused => exact ⟨unlimited, sink, unlimited', .oversized refused⟩
  | absent supported absent => exact ⟨unlimited, sink, unlimited', .absent supported absent⟩
  | unreported _ _ _ _ refused =>
    rw [refused] at written
    cases written.1
  | removed _ supported occurs taken =>
    rw [taken] at written
    exact ⟨written.2, _, written'.2, .removed _ supported occurs (Prod.ext rfl written'.1)⟩

/-- A chain of steps goes the same way on every sink without a limit. -/
theorem Steps.exists_of_unlimited {names : List Text} {state after : State}
    {failure : Option Failure} (steps : Steps strategy names state after failure)
    (unlimited : state.sink.limit = none) {sink : Sink} (unlimited' : sink.limit = none) :
    ∃ sink' : Sink,
      Steps strategy names { state with sink := sink } { after with sink := sink' } failure := by
  induction steps generalizing sink with
  | done => exact ⟨sink, .done _⟩
  | failed step =>
    obtain ⟨-, sink', -, step'⟩ := step.exists_of_unlimited unlimited unlimited'
    exact ⟨sink', .failed step'⟩
  | next step later ih =>
    obtain ⟨goesOn, middle, goesOn', step'⟩ := step.exists_of_unlimited unlimited unlimited'
    obtain ⟨sink', later'⟩ := ih goesOn goesOn'
    exact ⟨sink', .next step' later'⟩

end Pass

end RulePruner
