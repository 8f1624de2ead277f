import RulePruner.Proofs.Options.Reading

/-!
# Options as they are given

Options can be written as a command line in many ways: in any order, each value behind an equals
sign or as the next argument, and with or without those that have the value they have anyway
(`Options.Rendered`). Reading undoes all of them. What has been read so far settles what it was
given and leaves the rest at the defaults (`Reading.Reached`); one option more keeps that
(`Options.Form.reaches`), and so does a whole command line. The main statement is
`Options.parse_rendered`.
-/

namespace RulePruner

namespace Options

/-- What has to be given for a flag to come to these options: a value, an empty text for a flag that
has none, or nothing at all. -/
def given? (options : Options) : Flag → Option Text
  | .classList => some options.classList
  | .stylesheet => some options.stylesheet
  | .mode => some options.strategy.name.toList
  | .dryRun => if options.dryRun then some [] else none
  | .json | .help => none

/-- The ways to give one flag. A value that could be taken for a flag has to stand behind the equals
sign. -/
inductive Form (options : Options) : Flag → List Text → Prop
  | attached {flag : Flag} {value : Text} : flag.takesValue = true →
      options.given? flag = some value → Form options flag [flag.written.toList ++ '=' :: value]
  | separate {flag : Flag} {value : Text} : flag.takesValue = true →
      options.given? flag = some value → value.head? ≠ some '-' →
      Form options flag [flag.written.toList, value]
  | dryRun : options.dryRun = true → Form options .dryRun [Flag.dryRun.written.toList]
  | json : Form options .json [Flag.json.written.toList]

/-- The command lines that give the flags of a list, each of them once, in the order of the list. -/
inductive Rendered (options : Options) : List Flag → List Text → Prop
  | nothing : Rendered options [] []
  | next {flag : Flag} {flags : List Flag} {piece arguments : List Text} :
      Form options flag piece → flag ∉ flags → Rendered options flags arguments →
      Rendered options (flag :: flags) (piece ++ arguments)

/-- Options without an empty path. -/
structure Proper (options : Options) : Prop where
  classList : options.classList ≠ []
  stylesheet : options.stylesheet ≠ []

variable {interface : Interface} {options options' : Options} {flag flag' : Flag} {value : Text}
  {flags earlier : List Flag} {piece arguments : List Text}

/-- Options are told by what has to be given for them. -/
theorem ext_given (same : ∀ flag, options.given? flag = options'.given? flag) :
    options = options' := by
  have classList := same .classList
  have stylesheet := same .stylesheet
  have mode := same .mode
  have dryRun := same .dryRun
  cases options with
  | mk classList₁ stylesheet₁ strategy₁ dryRun₁ =>
    cases options' with
    | mk classList₂ stylesheet₂ strategy₂ dryRun₂ =>
      simp only [given?, Option.some.injEq] at classList stylesheet mode dryRun
      have strategies : strategy₁ = strategy₂ := by
        cases strategy₁ <;> cases strategy₂ <;> simp [Strategy.name] at mode ⊢
      have switches : dryRun₁ = dryRun₂ := by
        cases dryRun₁ <;> cases dryRun₂ <;> simp at dryRun ⊢
      rw [classList, stylesheet, strategies, switches]

theorem Proper.ne_nil (proper : Proper options) (valued : flag.takesValue = true)
    (given : options.given? flag = some value) : value ≠ [] := by
  cases flag with
  | classList => exact Option.some.inj given ▸ proper.classList
  | stylesheet => exact Option.some.inj given ▸ proper.stylesheet
  | mode =>
    obtain rfl := Option.some.inj given
    cases options.strategy <;> decide
  | dryRun => simp [Flag.takesValue, Flag.placeholder?] at valued
  | json => simp [Flag.takesValue, Flag.placeholder?] at valued
  | help => simp [Flag.takesValue, Flag.placeholder?] at valued

/-- Setting the value that a flag has in some options makes the flag agree with them, and no other.
-/
theorem exists_setValue (options' : Options) (valued : flag.takesValue = true)
    (given : options.given? flag = some value) (filled : value ≠ []) :
    ∃ after, options'.setValue flag value = .ok after ∧
      ∀ flag', after.given? flag' =
        if flag' = flag then options.given? flag else options'.given? flag' := by
  unfold setValue
  rw [if_neg filled]
  cases flag with
  | classList =>
    refine ⟨_, rfl, fun flag' => ?_⟩
    rw [given]
    cases flag' <;> rfl
  | stylesheet =>
    refine ⟨_, rfl, fun flag' => ?_⟩
    rw [given]
    cases flag' <;> rfl
  | mode =>
    have known : Strategy.ofName? (String.ofList value) = some options.strategy := by
      rw [← Option.some.inj given, String.ofList_toList, Strategy.ofName?_name]
    refine ⟨{ options' with strategy := options.strategy }, by simp only [known], fun flag' => ?_⟩
    cases flag' <;> rfl
  | dryRun => simp [Flag.takesValue, Flag.placeholder?] at valued
  | json => simp [Flag.takesValue, Flag.placeholder?] at valued
  | help => simp [Flag.takesValue, Flag.placeholder?] at valued

namespace Reading

variable {reading settled after : Reading}

/-- What is settled once the flags `earlier` are read: they agree with the options, and the others
are as they are by default. -/
structure Settled (options : Options) (earlier : List Flag) (settled : Reading) : Prop where
  used : settled.used = earlier
  waiting : settled.waiting = none
  json : settled.json = decide (Flag.json ∈ earlier)
  given : ∀ flag, settled.options.given? flag =
    if flag ∈ earlier then options.given? flag else ({} : Options).given? flag

/-- A reading that settles the flags `earlier` as soon as the value that it may hold is set. -/
def Reached (options : Options) (earlier : List Flag) (reading : Reading) : Prop :=
  ∃ settled, reading.settle = .ok settled ∧ Settled options earlier settled

theorem Settled.reached (settled' : Settled options earlier settled) :
    Reached options earlier settled :=
  ⟨settled, by rw [settle, settled'.waiting], settled'⟩

theorem settled_start (options : Options) : Settled options [] {} where
  used := rfl
  waiting := rfl
  json := rfl
  given := by simp

theorem Settled.markUsed (settled' : Settled options earlier settled) (fresh : flag ∉ earlier) :
    settled.markUsed flag = .ok { settled with used := earlier ++ [flag] } := by
  rw [Reading.markUsed, settled'.used, if_neg fresh]

/-- One flag more agrees with the options. -/
theorem Settled.snoc (settled' : Settled options earlier settled) (changed : Options) {json : Bool}
    (on : json = decide (Flag.json ∈ earlier ++ [flag]))
    (agrees : ∀ flag', changed.given? flag' =
      if flag' = flag then options.given? flag else settled.options.given? flag') :
    Settled options (earlier ++ [flag])
      { settled with options := changed, json := json, used := earlier ++ [flag] } where
  used := rfl
  waiting := settled'.waiting
  json := on
  given := by
    intro flag'
    rw [agrees flag', settled'.given flag']
    by_cases same : flag' = flag
    · subst same
      rw [if_pos rfl, if_pos (List.mem_append_right earlier List.mem_cons_self)]
    · have alike : flag' ∈ earlier ++ [flag] ↔ flag' ∈ earlier := by simp [same]
      rw [if_neg same]
      simp only [alike]

theorem mem_json_snoc (other : flag ≠ .json) :
    decide (Flag.json ∈ earlier) = decide (Flag.json ∈ earlier ++ [flag]) := by
  have apart : ¬ Flag.json = flag := other.symm
  simp [apart]

/-- The value of a flag can be set once. -/
theorem Settled.exists_assign (settled' : Settled options earlier settled) (proper : Proper options)
    (valued : flag.takesValue = true) (given : options.given? flag = some value)
    (fresh : flag ∉ earlier) :
    ∃ after, settled.assign flag value = .ok after ∧ Settled options (earlier ++ [flag]) after := by
  obtain ⟨changed, set, agrees⟩ :=
    exists_setValue settled.options valued given (proper.ne_nil valued given)
  have other : flag ≠ .json := by
    rintro rfl
    simp [Flag.takesValue, Flag.placeholder?] at valued
  refine ⟨_, ?_, settled'.snoc changed (settled'.json.trans (mem_json_snoc other)) agrees⟩
  simp only [assign, settled'.markUsed fresh, bind, Except.bind, set, pure, Except.pure]

theorem Settled.exists_turnOn_dryRun (settled' : Settled options earlier settled)
    (dry : options.dryRun = true) (fresh : Flag.dryRun ∉ earlier) :
    ∃ after, settled.turnOn .dryRun = .ok after ∧
      Settled options (earlier ++ [.dryRun]) after := by
  refine ⟨_, ?_, settled'.snoc { settled.options with dryRun := true }
    (settled'.json.trans (mem_json_snoc (by decide))) fun flag' => ?_⟩
  · simp only [turnOn, settled'.markUsed fresh, bind, Except.bind, pure, Except.pure]
  · cases flag' <;> simp [given?, dry]

theorem Settled.exists_turnOn_json (settled' : Settled options earlier settled)
    (fresh : Flag.json ∉ earlier) :
    ∃ after, settled.turnOn .json = .ok after ∧ Settled options (earlier ++ [.json]) after := by
  have met : true = decide (Flag.json ∈ earlier ++ [.json]) := by simp
  refine ⟨_, ?_, settled'.snoc settled.options met fun flag' => ?_⟩
  · simp only [turnOn, settled'.markUsed fresh, bind, Except.bind, pure, Except.pure]
  · cases flag' <;> rfl

theorem Steps.append {first middle last : Reading} {front back : List Text}
    (steps : Steps interface first front middle) (later : Steps interface middle back last) :
    Steps interface first (front ++ back) last := by
  induction steps with
  | done => exact later
  | next step _ ih => exact .next step (ih later)

/-- What one flag adds, in whichever form it is given. -/
theorem Reached.exists_steps (reached : Reached options earlier reading) (proper : Proper options)
    (form : Form options flag piece) (member : flag ∈ interface.flags) (fresh : flag ∉ earlier) :
    ∃ after, Steps interface reading piece after ∧ Reached options (earlier ++ [flag]) after := by
  obtain ⟨settled, settle, settled'⟩ := reached
  cases form with
  | attached valued given =>
    obtain ⟨after, assign, done⟩ := settled'.exists_assign proper valued given fresh
    exact ⟨after, .next (.assigned member valued settle assign) (.done after), done.reached⟩
  | @separate _ value valued given undashed =>
    obtain ⟨after, assign, done⟩ := settled'.exists_assign proper valued given fresh
    -- The value is only set when the next flag comes.
    let held : Reading := { settled with waiting := some (flag, some value) }
    have late : held.settle = .ok after := by
      have same : { held with waiting := none } = settled := by
        rw [← settled'.waiting]
      rw [Reading.settle]
      exact (congrArg (·.assign flag value) same).trans assign
    exact ⟨held, .next (.announced member valued settle)
      (.next (.supplied rfl (Or.inr undashed)) (.done held)), after, late, done⟩
  | dryRun dry =>
    obtain ⟨after, turned, done⟩ := settled'.exists_turnOn_dryRun dry fresh
    exact ⟨after, .next (.switched member rfl (by decide) settle turned) (.done after), done.reached⟩
  | json =>
    obtain ⟨after, turned, done⟩ := settled'.exists_turnOn_json fresh
    exact ⟨after, .next (.switched member rfl (by decide) settle turned) (.done after), done.reached⟩

/-- What a whole command line adds. -/
theorem Reached.exists_steps_of_rendered (reached : Reached options earlier reading)
    (proper : Proper options) (rendered : Rendered options flags arguments)
    (members : ∀ flag ∈ flags, flag ∈ interface.flags) (fresh : ∀ flag ∈ flags, flag ∉ earlier) :
    ∃ last, Steps interface reading arguments last ∧ Reached options (earlier ++ flags) last := by
  induction rendered generalizing earlier reading with
  | nothing => exact ⟨reading, .done reading, by rwa [List.append_nil]⟩
  | @next flag flags piece arguments form once rendered ih =>
    obtain ⟨middle, steps, reached⟩ :=
      reached.exists_steps proper form (members flag (by simp)) (fresh flag (by simp))
    have later : ∀ flag' ∈ flags, flag' ∉ earlier ++ [flag] := by
      intro flag' member
      have apart : flag' ≠ flag := fun same => once (same ▸ member)
      simp [apart, fresh flag' (by simp [member])]
    obtain ⟨last, steps', reached⟩ :=
      ih reached (fun flag' member => members flag' (by simp [member])) later
    rw [List.append_assoc, List.singleton_append] at reached
    exact ⟨last, steps.append steps', reached⟩

end Reading

open Reading

/-- A command line that gives options, and leaves out nothing that is not as it is by default, is
read as a run with these options, where the interface has the flags that it gives. -/
theorem parse_of_rendered (proper : Proper options) (rendered : Rendered options flags arguments)
    (complete : ∀ flag, flag ∉ flags → options.given? flag = ({} : Options).given? flag)
    (members : ∀ flag ∈ flags, flag ∈ interface.flags) :
    parse interface arguments = .ok (.run options (decide (Flag.json ∈ flags))) := by
  have start := (settled_start options).reached
  obtain ⟨last, steps, settled, settle, done⟩ :=
    start.exists_steps_of_rendered proper rendered members (by simp)
  rw [List.nil_append] at done
  have same : settled.options = options := by
    apply ext_given
    intro flag
    rw [done.given flag]
    by_cases given : flag ∈ flags
    · rw [if_pos given]
    · rw [if_neg given, complete flag given]
  exact readAll_eq_run_iff.mpr
    ⟨arguments, last, settled, Or.inl rfl, steps, settle, same, done.json⟩

/-- Options that have no empty path come back from every command line that gives them: from any
order of the flags, each value behind an equals sign or, if it does not start with a dash, as the
next argument, and with any of the options left out that are as they are by default. The flag that
asks for JSON may stand among them where the program is called, and changes nothing else. -/
theorem parse_rendered (options : Options) (proper : Proper options) (flags : List Flag)
    (arguments : List Text) (rendered : Rendered options flags arguments)
    (complete : ∀ flag, flag ∉ flags → options.given? flag = ({} : Options).given? flag) :
    parse .program arguments = .ok (.run options (decide (Flag.json ∈ flags))) ∧
      (Flag.json ∉ flags → parse .options arguments = .ok (.run options false)) := by
  have known (flag : Flag) : flag ∈ Interface.program.flags := by cases flag <;> decide
  refine ⟨parse_of_rendered proper rendered complete fun flag _ => known flag, fun plain => ?_⟩
  have members : ∀ flag ∈ flags, flag ∈ Interface.options.flags := by
    intro flag member
    cases flag with
    | json => exact absurd member plain
    | _ => decide
  rw [parse_of_rendered proper rendered complete members, decide_eq_false plain]

/-- A path that looks like another flag, one that holds an equals sign and another flag, the
strategy left out, and the flag that asks for JSON in between. -/
theorem parse_rendered_of_dashed_path :
    let options : Options :=
      { classList := "--mode=fast".toList, stylesheet := "a=b --json".toList, dryRun := true }
    let front := ["--dry-run".toList, "--class-list=--mode=fast".toList]
    let back := ["--stylesheet".toList, "a=b --json".toList]
    Proper options ∧
      parse .program (front ++ "--json".toList :: back) = .ok (.run options true) ∧
      parse .options (front ++ back) = .ok (.run options false) := by
  intro options front back
  have proper : Proper options := ⟨by decide, by decide⟩
  have complete (flag : Flag) (absent : flag ∉ [Flag.dryRun, .classList, .stylesheet]) :
      options.given? flag = ({} : Options).given? flag := by
    cases flag <;> first | rfl | simp at absent
  have dryRun : Form options .dryRun ["--dry-run".toList] := .dryRun rfl
  have classList : Form options .classList ["--class-list=--mode=fast".toList] := .attached rfl rfl
  have stylesheet : Rendered options [.stylesheet] back :=
    .next (.separate rfl rfl (by decide)) (by decide) .nothing
  have plain := Rendered.next dryRun (by decide) (.next classList (by decide) stylesheet)
  have reported := Rendered.next dryRun (by decide)
    (.next classList (by decide) (.next .json (by decide) stylesheet))
  refine ⟨proper, ?_, ?_⟩
  · have complete' (flag : Flag) (absent : flag ∉ [Flag.dryRun, .classList, .json, .stylesheet]) :
        options.given? flag = ({} : Options).given? flag := by
      apply complete
      intro member
      apply absent
      cases flag <;> simp at member ⊢
    exact (parse_rendered options proper _ _ reported complete').1
  · exact (parse_rendered options proper _ _ plain complete).2 (by decide)

end Options

end RulePruner
