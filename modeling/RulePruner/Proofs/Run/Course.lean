import RulePruner.Proofs.Run.Accounting

/-!
# The course of a run

What a run reports and how it ends is settled by the first thing that goes wrong: the class list or
the stylesheet cannot be read, a class is refused, the line of a class does not fit the sink, the
stylesheet is read-only or cannot grow to its new size. `Run.Course` says so without a step being
taken. The main statement is `Run.perform_course`: every run has one course, and takes it.
-/

namespace RulePruner

open FileTree (Fits clip)

/-- The progress lines of some classes. -/
def Report.progress (names : List Text) : Bytes :=
  names.flatMap fun name => Text.encode (removing name)

theorem Report.progress_append (names names' : List Text) :
    progress (names ++ names') = progress names ++ progress names' :=
  List.flatMap_append

namespace Rule

variable {strategy : Strategy} {name css : Text} {names : List Text}

/-- The classes that have a rule in what the classes before them leave. -/
def matched (strategy : Strategy) (names : List Text) (css : Text) : List Text :=
  (names.zipIdx.filter fun entry =>
    Occurs strategy entry.1 (withoutInTurn strategy (names.take entry.2) css)).map Prod.fst

theorem matched_cons : matched strategy (name :: names) css =
    (if Occurs strategy name css then [name] else []) ++
      matched strategy names (without strategy [name] css) := by
  have later : (names.zipIdx 1).filter (fun entry =>
        Occurs strategy entry.1 (withoutInTurn strategy ((name :: names).take entry.2) css)) =
      (names.zipIdx.filter fun entry => Occurs strategy entry.1
        (withoutInTurn strategy (names.take entry.2) (without strategy [name] css))).map
          fun entry => (entry.1, entry.2 + 1) := by
    rw [show (1 : Nat) = 0 + 1 from rfl, List.zipIdx_succ, List.filter_map]
    rfl
  unfold matched
  rw [List.zipIdx_cons, List.filter_cons, Nat.zero_add, later]
  by_cases occurs : Occurs strategy name css <;>
    simp [occurs, withoutInTurn, Function.comp_def]

theorem matched_eq_foundInTurn : matched strategy names css = foundInTurn strategy names css := by
  induction names generalizing css with
  | nil => rfl
  | cons name names ih => rw [matched_cons, foundInTurn_cons, ih]

theorem matched_concat : matched strategy (names ++ [name]) css =
    matched strategy names css ++
      if Occurs strategy name (withoutInTurn strategy names css) then [name] else [] := by
  induction names generalizing css with
  | nil => rw [List.nil_append, matched_cons]; exact List.append_nil _
  | cons first names ih =>
    rw [List.cons_append, matched_cons, matched_cons, ih, List.append_assoc, withoutInTurn]

theorem matched_sublist : (matched strategy names css).Sublist names := by
  have whole := (List.filter_sublist (l := names.zipIdx) (p := fun entry =>
    Occurs strategy entry.1 (withoutInTurn strategy (names.take entry.2) css))).map Prod.fst
  rwa [List.zipIdx_map_fst] at whole

end Rule

namespace Pass

variable {strategy : Strategy} {sink : Sink} {css name : Text}
  {names earlier later matched matched' : List Text} {failure failure' : Failure}

/-- What stops a pass at the class `name`, where the classes `earlier` have gone before it and the
sink was empty before the first of them. A class that is refused is not looked for; a class whose
line does not fit has matched. -/
inductive Stops (strategy : Strategy) (sink : Sink) (css : Text) (earlier : List Text)
    (name : Text) : List Text → Failure → Prop
  | oversized : strategy = .fast → Pattern.compiles name = false →
      Stops strategy sink css earlier name (Rule.matched strategy earlier css) (.oversized name)
  | unreported : Rule.supports strategy name = true →
      Rule.Occurs strategy name (Rule.withoutInTurn strategy earlier css) →
      ¬ Fits sink.limit (Report.progress (Rule.matched strategy earlier css ++ [name])) →
      Stops strategy sink css earlier name (Rule.matched strategy earlier css ++ [name])
        (.unreported sink.refusal)

/-- Whether nothing stops a pass. -/
def Unstopped (strategy : Strategy) (sink : Sink) (css : Text) (names : List Text) : Prop :=
  ∀ earlier name later, names = earlier ++ name :: later →
    ∀ matched failure, ¬ Stops strategy sink css earlier name matched failure

/-- How a pass through `names` ends: the classes that have matched, and the failure that it ends in,
if any. It stops at the first class at which something stops it. -/
inductive Course (strategy : Strategy) (sink : Sink) (css : Text) (names : List Text) :
    List Text → Option Failure → Prop
  | stopped {earlier : List Text} {name : Text} {later matched : List Text} {failure : Failure} :
      names = earlier ++ name :: later → Unstopped strategy sink css earlier →
      Stops strategy sink css earlier name matched failure →
      Course strategy sink css names matched (some failure)
  | done : Unstopped strategy sink css names →
      Course strategy sink css names (Rule.matched strategy names css) none

theorem Stops.unique (stops : Stops strategy sink css earlier name matched failure)
    (stops' : Stops strategy sink css earlier name matched' failure') :
    matched = matched' ∧ failure = failure' := by
  cases stops with
  | oversized fast large =>
    cases stops' with
    | oversized => exact ⟨rfl, rfl⟩
    | unreported supported =>
      subst fast
      exact absurd supported (by simp [Rule.supports, large])
  | unreported supported =>
    cases stops' with
    | oversized fast large =>
      subst fast
      exact absurd supported (by simp [Rule.supports, large])
    | unreported => exact ⟨rfl, rfl⟩

/-- Classes that do not stop a pass all come before one that does. -/
theorem Stops.earlier_of_unstopped (stops : Stops strategy sink css earlier name matched failure)
    {front back : List Text} (unstopped : Unstopped strategy sink css front)
    (split : earlier ++ name :: later = front ++ back) : front <+: earlier := by
  rcases List.append_eq_append_iff.mp split with ⟨rest, rfl, tail⟩ | ⟨rest, rfl, -⟩
  · cases rest with
    | nil => rw [List.append_nil]
    | cons first rest =>
      -- The class that stops would be one of those that do not.
      rw [List.cons_append, List.cons.injEq] at tail
      exact absurd stops (unstopped earlier name rest (by rw [tail.1]) _ _)
  · exact List.prefix_append _ _

theorem Course.unique {stop stop' : Option Failure}
    (course : Course strategy sink css names matched stop)
    (course' : Course strategy sink css names matched' stop') :
    matched = matched' ∧ stop = stop' := by
  cases course with
  | stopped split unstopped stops =>
    cases course' with
    | stopped split' unstopped' stops' =>
      -- Neither stop comes before the other, so both are at one class.
      have short := stops.earlier_of_unstopped unstopped' (split.symm.trans split')
      have long := stops'.earlier_of_unstopped unstopped (split'.symm.trans split)
      obtain rfl := long.eq_of_length_le short.length_le
      obtain ⟨rfl, -⟩ := List.cons.inj (List.append_cancel_left (split.symm.trans split'))
      exact (stops.unique stops').imp id (congrArg some)
    | done unstopped' => exact absurd stops (unstopped' _ _ _ split _ _)
  | done unstopped =>
    cases course' with
    | stopped split' _ stops' => exact absurd stops' (unstopped _ _ _ split' _ _)
    | done => exact ⟨rfl, rfl⟩

theorem unstopped_nil : Unstopped strategy sink css [] := by
  intro earlier name later split
  simp at split

theorem Unstopped.concat (unstopped : Unstopped strategy sink css names)
    (goesOn : ∀ matched failure, ¬ Stops strategy sink css names name matched failure) :
    Unstopped strategy sink css (names ++ [name]) := by
  intro earlier other later split
  rcases List.eq_nil_or_concat later with rfl | ⟨later, last, rfl⟩
  · obtain ⟨rfl, same⟩ := List.append_inj' split rfl
    obtain rfl := (List.cons.inj same).1
    exact goesOn
  · rw [List.concat_eq_append, ← List.cons_append, ← List.append_assoc] at split
    exact unstopped earlier other later (List.append_inj' split rfl).1

/-- The state of a pass that has gone through `names`, on a sink that was empty before. -/
def State.through (strategy : Strategy) (css : Text) (sink : Sink) (names : List Text) : State where
  css := Rule.withoutInTurn strategy names css
  removed := Rule.matched strategy names css
  sink := { sink with taken := Report.progress (Rule.matched strategy names css) }

theorem State.through_nil (empty : sink.taken = []) :
    State.through strategy css sink [] = ⟨css, [], sink⟩ := by
  cases sink
  cases empty
  rfl

theorem State.through_concat_of_occurs
    (occurs : Rule.Occurs strategy name (Rule.withoutInTurn strategy names css)) :
    State.through strategy css sink (names ++ [name]) =
      { css := Rule.without strategy [name] (Rule.withoutInTurn strategy names css)
        removed := Rule.matched strategy names css ++ [name]
        sink := { sink with
          taken := Report.progress (Rule.matched strategy names css ++ [name]) } } := by
  rw [State.through, Rule.matched_concat, if_pos occurs, Rule.withoutInTurn_concat]

theorem State.through_concat_of_not_occurs
    (absent : ¬ Rule.Occurs strategy name (Rule.withoutInTurn strategy names css)) :
    State.through strategy css sink (names ++ [name]) = State.through strategy css sink names := by
  rw [State.through, Rule.matched_concat, if_neg absent, List.append_nil,
    Rule.withoutInTurn_concat, Rule.without_of_not_occurs absent, State.through]

/-- What the sink answers to the line of a class that has matched. -/
theorem writeAll_through (name : Text)
    (fits : Fits sink.limit (Report.progress (Rule.matched strategy names css))) :
    (State.through strategy css sink names).sink.writeAll [Report.removing name] =
      ({ sink with
          taken := clip sink.limit (Report.progress (Rule.matched strategy names css ++ [name])) },
        if Fits sink.limit (Report.progress (Rule.matched strategy names css ++ [name])) then none
        else some sink.refusal) := by
  rw [Sink.writeAll_eq fits, Report.progress_append]
  rfl

/-- A class that stops a pass fails, and as much of the lines as fits is in the sink. -/
theorem Stops.exists_step (stops : Stops strategy sink css names name matched failure)
    (fits : Fits sink.limit (Report.progress (Rule.matched strategy names css))) :
    ∃ after, Step strategy name (State.through strategy css sink names) after (some failure) ∧
      after.sink = { sink with taken := clip sink.limit (Report.progress matched) } := by
  cases stops with
  | oversized fast large =>
    refine ⟨_, .oversized (by rw [fast, Rule.supports, large]), ?_⟩
    rw [fits.clip_eq, State.through]
  | unreported supported occurs exceeds =>
    have written := writeAll_through name fits
    rw [if_neg exceeds] at written
    exact ⟨_, .unreported _ _ supported occurs written, rfl⟩

/-- A class that does not stop a pass is handled, and its line fits if it has matched. -/
theorem step_of_goesOn
    (goesOn : ∀ matched failure, ¬ Stops strategy sink css names name matched failure)
    (fits : Fits sink.limit (Report.progress (Rule.matched strategy names css))) :
    Step strategy name (State.through strategy css sink names)
        (State.through strategy css sink (names ++ [name])) none ∧
      Fits sink.limit (Report.progress (Rule.matched strategy (names ++ [name]) css)) := by
  have supported : Rule.supports strategy name = true := by
    cases strategy with
    | balanced => rfl
    | fast =>
      rw [← Bool.not_eq_false]
      exact fun large => goesOn _ _ (.oversized rfl large)
  by_cases occurs : Rule.Occurs strategy name (Rule.withoutInTurn strategy names css)
  · have room : Fits sink.limit
        (Report.progress (Rule.matched strategy names css ++ [name])) := by
      by_contra exceeds
      exact goesOn _ _ (.unreported supported occurs exceeds)
    have written := writeAll_through name fits
    rw [if_pos room, room.clip_eq] at written
    rw [State.through_concat_of_occurs occurs, Rule.matched_concat, if_pos occurs]
    exact ⟨.removed _ supported occurs written, room⟩
  · rw [State.through_concat_of_not_occurs occurs, Rule.matched_concat, if_neg occurs,
      List.append_nil]
    exact ⟨.absent supported occurs, fits⟩

/-- A pass goes through its classes up to the first one that stops it. -/
theorem exists_steps_course (sink : Sink) (unstopped : Unstopped strategy sink css earlier)
    (fits : Fits sink.limit (Report.progress (Rule.matched strategy earlier css)))
    (later : List Text) :
    ∃ after stop matched,
      Steps strategy later (State.through strategy css sink earlier) after stop ∧
        Course strategy sink css (earlier ++ later) matched stop ∧
        after.sink = { sink with taken := clip sink.limit (Report.progress matched) } ∧
        (stop = none → Fits sink.limit (Report.progress matched)) := by
  -- The induction is on the classes still to come; the state is told by those that have gone.
  induction later generalizing earlier with
  | nil =>
    rw [List.append_nil]
    refine ⟨_, none, _, .done _, .done unstopped, ?_, fun _ => fits⟩
    rw [fits.clip_eq, State.through]
  | cons name later ih =>
    by_cases stops : ∃ matched failure, Stops strategy sink css earlier name matched failure
    · rcases stops with ⟨matched, failure, stops⟩
      obtain ⟨after, step, taken⟩ := stops.exists_step fits
      exact ⟨after, some failure, matched, .failed step, .stopped rfl unstopped stops, taken, by simp⟩
    · have goesOn : ∀ matched failure,
          ¬ Stops strategy sink css earlier name matched failure :=
        fun matched failure stop => stops ⟨matched, failure, stop⟩
      obtain ⟨step, room⟩ := step_of_goesOn goesOn fits
      obtain ⟨after, stop, matched, steps, rest⟩ := ih (unstopped.concat goesOn) room
      rw [List.append_assoc, List.singleton_append] at rest
      exact ⟨after, stop, matched, .next step steps, rest⟩

end Pass

namespace Run

open Text

variable {options : Options} {fileLimit : Option Nat} {sink : Sink} {tree : FileTree}
  {names : List Text} {css : Text} {matched matched' : List Text} {stop stop' : Option Failure}

/-- How a run ends: the classes that have matched, and the failure that it ends in, if any. It reads
its class list and then its stylesheet, goes through its classes, and writes the stylesheet at the
end. -/
inductive Course (options : Options) (fileLimit : Option Nat) (sink : Sink) (tree : FileTree) :
    List Text → Option Failure → Prop
  | listUnreadable {fault : Fault} : Unreadable tree options.classList fault →
      Course options fileLimit sink tree [] (some (.unreadable options.classList fault))
  | sheetUnreadable {list : Text} {fault : Fault} :
      tree.read options.classList = .ok (encode list) →
      Unreadable tree options.stylesheet fault →
      Course options fileLimit sink tree [] (some (.unreadable options.stylesheet fault))
  | stopped {names : List Text} {css : Text} {matched : List Text} {failure : Failure} :
      load options tree = .ok (names, css) →
      Pass.Course options.strategy sink css names matched (some failure) →
      Course options fileLimit sink tree matched (some failure)
  | passed {names : List Text} {css : Text} {matched : List Text} :
      load options tree = .ok (names, css) →
      Pass.Course options.strategy sink css names matched none →
      Course options fileLimit sink tree matched
        (refusal options fileLimit tree (collapse (Rule.withoutInTurn options.strategy names css)))

theorem Course.of_load_error {failure : Failure} (unread : load options tree = .error failure)
    (course : Course options fileLimit sink tree matched stop) :
    matched = [] ∧ stop = some failure := by
  cases course with
  | listUnreadable unreadable =>
    have first := load_eq_error_iff.mpr (Or.inl ⟨_, unreadable, rfl⟩)
    exact ⟨rfl, congrArg some (Except.error.inj (first.symm.trans unread))⟩
  | sheetUnreadable readable unreadable =>
    have second := load_eq_error_iff.mpr (Or.inr ⟨⟨_, readable⟩, _, unreadable, rfl⟩)
    exact ⟨rfl, congrArg some (Except.error.inj (second.symm.trans unread))⟩
  | stopped loaded => cases loaded.symm.trans unread
  | passed loaded => cases loaded.symm.trans unread

theorem course_of_load_error {failure : Failure} (unread : load options tree = .error failure) :
    Course options fileLimit sink tree [] (some failure) := by
  rcases load_eq_error_iff.mp unread with ⟨fault, unreadable, rfl⟩ | ⟨⟨list, readable⟩, sheet⟩
  · exact .listUnreadable unreadable
  · rcases sheet with ⟨fault, unreadable, rfl⟩
    exact .sheetUnreadable readable unreadable

/-- A run whose files can be read takes the course of its pass, and a pass that is over is followed
by the write. -/
theorem Course.exists_pass (loaded : load options tree = .ok (names, css))
    (course : Course options fileLimit sink tree matched stop) :
    ∃ halt, Pass.Course options.strategy sink css names matched halt ∧
      stop = halt.or (refusal options fileLimit tree
        (collapse (Rule.withoutInTurn options.strategy names css))) := by
  cases course with
  | listUnreadable unreadable =>
    have first := load_eq_error_iff.mpr (Or.inl ⟨_, unreadable, rfl⟩)
    cases first.symm.trans loaded
  | sheetUnreadable readable unreadable =>
    have second := load_eq_error_iff.mpr (Or.inr ⟨⟨_, readable⟩, _, unreadable, rfl⟩)
    cases second.symm.trans loaded
  | stopped loaded' pass =>
    obtain ⟨rfl, rfl⟩ := Prod.mk.inj (Except.ok.inj (loaded.symm.trans loaded'))
    exact ⟨_, pass, rfl⟩
  | passed loaded' pass =>
    obtain ⟨rfl, rfl⟩ := Prod.mk.inj (Except.ok.inj (loaded.symm.trans loaded'))
    exact ⟨_, pass, rfl⟩

theorem Course.unique (course : Course options fileLimit sink tree matched stop)
    (course' : Course options fileLimit sink tree matched' stop') :
    matched = matched' ∧ stop = stop' := by
  cases loaded : load options tree with
  | error failure =>
    obtain ⟨rfl, rfl⟩ := course.of_load_error loaded
    obtain ⟨rfl, rfl⟩ := course'.of_load_error loaded
    exact ⟨rfl, rfl⟩
  | ok read =>
    obtain ⟨halt, pass, rfl⟩ := course.exists_pass loaded
    obtain ⟨halt', pass', rfl⟩ := course'.exists_pass loaded
    obtain ⟨rfl, rfl⟩ := pass.unique pass'
    exact ⟨rfl, rfl⟩

theorem Course.iff_eq (course : Course options fileLimit sink tree matched stop) :
    Course options fileLimit sink tree matched' stop' ↔ matched' = matched ∧ stop' = stop := by
  constructor
  · exact fun course' => course'.unique course
  · rintro ⟨rfl, rfl⟩
    exact course

/-- The result of a run that has gone through all its classes. -/
theorem exists_outcome_of_steps {sink : Sink} {state : Pass.State} (fileLimit : Option Nat)
    (loaded : load options tree = .ok (names, css))
    (steps : Pass.Steps options.strategy names ⟨css, [], sink⟩ state none) :
    ∃ outcome, outcome.removed = Rule.matched options.strategy names css ∧
      (Run.perform options fileLimit sink tree).result =
        match refusal options fileLimit tree
            (collapse (Rule.withoutInTurn options.strategy names css)) with
        | some failure => .error failure
        | none => .ok outcome := by
  obtain ⟨content, readable⟩ := exists_read_stylesheet loaded
  obtain ⟨-, end_⟩ := perform_of_steps fileLimit loaded steps
  have result := congrArg Prod.snd end_
  rw [drafted, ending_result readable, steps.css_eq.1] at result
  refine ⟨_, ?_, result⟩
  exact (steps.removed_eq.trans (List.nil_append _)).trans Rule.matched_eq_foundInTurn.symm

/-- A run on a sink that was empty before takes a course, of which its sink and its result tell. -/
theorem exists_course (options : Options) (fileLimit : Option Nat) (sink : Sink)
    (empty : sink.taken = []) (tree : FileTree) :
    let run := Run.perform options fileLimit sink tree
    ∃ matched stop, Course options fileLimit sink tree matched stop ∧
      run.trace.sink.taken = clip sink.limit (Report.progress matched) ∧
      match stop with
      | some failure => run.result = .error failure
      | none => ∃ names css outcome, load options tree = .ok (names, css) ∧
          run.result = .ok outcome ∧ outcome.removed = matched ∧
          matched = Rule.matched options.strategy names css ∧
          Fits sink.limit (Report.progress matched) := by
  intro run
  cases loaded : load options tree with
  | error failure =>
    obtain ⟨sinkEnd, end_⟩ := perform_of_load_error fileLimit sink loaded
    refine ⟨[], some failure, course_of_load_error loaded, ?_, congrArg Prod.snd end_⟩
    rw [sinkEnd, empty]
    exact (FileTree.fits_nil sink.limit).clip_eq.symm
  | ok read =>
    obtain ⟨names, css⟩ := read
    obtain ⟨after, halt, matched, steps, pass, taken, passed⟩ :=
      Pass.exists_steps_course sink Pass.unstopped_nil (FileTree.fits_nil sink.limit) names
    rw [Pass.State.through_nil empty] at steps
    obtain ⟨sinkEnd, end_⟩ := perform_of_steps fileLimit loaded steps
    have held : run.trace.sink.taken = clip sink.limit (Report.progress matched) :=
      congrArg Sink.taken (sinkEnd.trans taken)
    cases halt with
    | some failure =>
      exact ⟨matched, some failure, .stopped loaded pass, held, congrArg Prod.snd end_⟩
    | none =>
      obtain ⟨outcome, removed, result⟩ := exists_outcome_of_steps fileLimit loaded steps
      refine ⟨matched, _, .passed loaded pass, held, ?_⟩
      cases refused : refusal options fileLimit tree
          (collapse (Rule.withoutInTurn options.strategy names css)) with
      | some failure =>
        rw [refused] at result
        exact result
      | none =>
        rw [refused] at result
        cases pass
        exact ⟨names, css, outcome, rfl, result, removed, rfl, passed rfl⟩

/-- Every run on a sink that was empty before has one course. Its sink holds as much of the lines of
the classes that have matched as fits, and it ends in the failure of its course. If there is none,
it succeeds: the classes that it removed are those of the list that have a rule in what the classes
before them leave, and its sink holds their lines. -/
theorem perform_course (options : Options) (fileLimit : Option Nat) (sink : Sink)
    (empty : sink.taken = []) (tree : FileTree) :
    let run := Run.perform options fileLimit sink tree
    ∃ matched stop,
      (∀ matched' stop', Course options fileLimit sink tree matched' stop' ↔
        matched' = matched ∧ stop' = stop) ∧
      run.trace.sink.taken = clip sink.limit (Report.progress matched) ∧
      match stop with
      | some failure => run.result = .error failure
      | none => ∃ names css outcome, load options tree = .ok (names, css) ∧
          run.result = .ok outcome ∧ outcome.removed = matched ∧
          matched = Rule.matched options.strategy names css ∧ matched.Sublist names ∧
          run.trace.sink.taken = Report.progress matched := by
  intro run
  obtain ⟨matched, stop, course, held, ends⟩ := exists_course options fileLimit sink empty tree
  refine ⟨matched, stop, fun _ _ => course.iff_eq, held, ?_⟩
  cases stop with
  | some failure => exact ends
  | none =>
    obtain ⟨names, css, outcome, loaded, result, removed, rfl, fits⟩ := ends
    exact ⟨names, css, outcome, loaded, result, removed, rfl, Rule.matched_sublist,
      held.trans fits.clip_eq⟩

/-- The first class has no rule, the line of the second fits, and the disk is full in the middle of
the line of the third. -/
theorem perform_course_of_full_sink :
    let disk : Sink :=
      { limit := some 25, refusal := .other "No space left on device (os error 28)" }
    let run := Run.perform {} none disk (workspace "x\na\nb\nc".toList ".b{}.a{}.c{}".toList)
    run.result = .error (.unreported (.other "No space left on device (os error 28)")) ∧
      run.trace.sink.taken = encode "Removing class: .a\nRemovi".toList := by
  intro disk run
  obtain ⟨matched, stop, course, held, ends⟩ := perform_course {} none disk rfl
    (workspace "x\na\nb\nc".toList ".b{}.a{}.c{}".toList)
  have loaded := load_workspace .balanced "x\na\nb\nc".toList ".b{}.a{}.c{}".toList
  have goesOnX : Pass.Unstopped .balanced disk ".b{}.a{}.c{}".toList ["x".toList] := by
    refine Pass.unstopped_nil.concat ?_
    rintro _ _ (⟨⟨⟩⟩ | ⟨-, occurs, -⟩)
    exact absurd occurs (by decide +kernel)
  have goesOnA : Pass.Unstopped .balanced disk ".b{}.a{}.c{}".toList
      ["x".toList, "a".toList] := by
    refine goesOnX.concat ?_
    rintro _ _ (⟨⟨⟩⟩ | ⟨-, -, exceeds⟩)
    exact absurd (by decide +kernel) exceeds
  have stopsB : Pass.Stops .balanced disk ".b{}.a{}.c{}".toList
      ["x".toList, "a".toList] "b".toList _ _ :=
    .unreported rfl (by decide +kernel) (by decide +kernel)
  obtain ⟨rfl, rfl⟩ := (course _ _).mp (.stopped (loaded.trans (by decide +kernel))
    (.stopped (show _ = ["x".toList, "a".toList] ++ "b".toList :: ["c".toList] from rfl) goesOnA
      stopsB))
  exact ⟨ends, held.trans (by decide +kernel)⟩

end Run

end RulePruner
