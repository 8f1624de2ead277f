import RulePruner.Proofs.Options.Reading

/-!
# Command lines with and without the JSON flag

The flag that asks for JSON sets nothing else. Two readings of which only the second has met that
flag (`Reading.AddsJson`) take the same steps, so the flag can be put before a command line that has
none, and left out of one that has it, and the options stay what they are.
-/

namespace RulePruner

namespace Options

variable {interface : Interface} {flag : Flag} {argument value : Text} {arguments : List Text}

namespace Reading

variable {first second first' second' settled after last : Reading}

/-- A reading that has not met the JSON flag. -/
structure Plain (reading : Reading) : Prop where
  off : reading.json = false
  unused : Flag.json ∉ reading.used
  awaited : ∀ flag value?, reading.waiting = some (flag, value?) → flag ≠ .json

/-- Two readings that differ only in that the second has met the JSON flag. -/
structure AddsJson (first second : Reading) : Prop where
  plain : Plain first
  on : second.json = true
  options : second.options = first.options
  waiting : second.waiting = first.waiting
  used : ∀ flag, flag ∈ second.used ↔ flag = .json ∨ flag ∈ first.used

/-- Two readings go on alike, apart from the JSON flag. -/
inductive Alongside : Except UsageError Reading → Except UsageError Reading → Prop
  | both {first second : Reading} : AddsJson first second →
      Alongside (.ok first) (.ok second)
  | neither (error error' : UsageError) : Alongside (.error error) (.error error')

namespace Alongside

variable {x y : Except UsageError Reading}

theorem exists_second (alongside : Alongside x y) (ok : x = .ok first) :
    ∃ second, y = .ok second ∧ AddsJson first second := by
  subst ok
  cases alongside with
  | both adds => exact ⟨_, rfl, adds⟩

theorem exists_first (alongside : Alongside x y) (ok : y = .ok second) :
    ∃ first, x = .ok first ∧ AddsJson first second := by
  subst ok
  cases alongside with
  | both adds => exact ⟨_, rfl, adds⟩

theorem bind {f g : Reading → Except UsageError Reading} (alongside : Alongside x y)
    (next : ∀ first second, AddsJson first second → Alongside (f first) (g second)) :
    Alongside (x >>= f) (y >>= g) := by
  cases alongside with
  | both adds => exact next _ _ adds
  | neither => exact .neither _ _

end Alongside

/-- The JSON flag was met before. -/
theorem Plain.addsJson (plain : Plain first) :
    AddsJson first { first with json := true, used := first.used ++ [.json] } where
  plain := plain
  on := rfl
  options := rfl
  waiting := rfl
  used := by simp [or_comm]

namespace AddsJson

theorem markUsed (adds : AddsJson first second) (other : flag ≠ .json) :
    Alongside (first.markUsed flag) (second.markUsed flag) := by
  unfold Reading.markUsed
  by_cases repeated : flag ∈ first.used
  · rw [if_pos repeated, if_pos ((adds.used flag).mpr (Or.inr repeated))]
    exact .neither _ _
  · have fresh : flag ∉ second.used := by simp [adds.used, other, repeated]
    rw [if_neg repeated, if_neg fresh]
    refine .both ⟨⟨adds.plain.off, ?_, adds.plain.awaited⟩, adds.on, adds.options, adds.waiting, ?_⟩
    · simp [adds.plain.unused, other.symm]
    · intro flag'
      simp [adds.used, or_assoc]

theorem with_options (adds : AddsJson first second) (options : Options) :
    AddsJson { first with options := options } { second with options := options } :=
  { adds with plain := { adds.plain with }, options := rfl }

theorem with_waiting (adds : AddsJson first second) (waiting : Option (Flag × Option Text))
    (awaited : ∀ flag value?, waiting = some (flag, value?) → flag ≠ .json) :
    AddsJson { first with waiting := waiting } { second with waiting := waiting } :=
  { adds with plain := { adds.plain with awaited := awaited }, waiting := rfl }

theorem awaiting (adds : AddsJson first second) (other : flag ≠ .json) (value? : Option Text) :
    AddsJson { first with waiting := some (flag, value?) }
      { second with waiting := some (flag, value?) } := by
  apply adds.with_waiting
  rintro flag' value' same
  obtain ⟨rfl, -⟩ := Prod.mk.inj (Option.some.inj same)
  exact other

theorem assign (adds : AddsJson first second) (other : flag ≠ .json) (value : Text) :
    Alongside (first.assign flag value) (second.assign flag value) := by
  refine (adds.markUsed other).bind fun marked marked' adds => ?_
  rw [adds.options]
  cases marked.options.setValue flag value with
  | error error => exact .neither _ _
  | ok options => exact .both (adds.with_options options)

theorem settle (adds : AddsJson first second) : Alongside first.settle second.settle := by
  unfold Reading.settle
  rw [adds.waiting]
  match waits : first.waiting with
  | none => exact .both adds
  | some (flag, none) => exact .neither _ _
  | some (flag, some value) =>
    exact (adds.with_waiting none (by simp)).assign (adds.plain.awaited flag _ waits) value

theorem turnOn (adds : AddsJson first second) (other : flag ≠ .json) :
    Alongside (first.turnOn flag) (second.turnOn flag) := by
  refine (adds.markUsed other).bind fun marked marked' adds => ?_
  cases flag with
  | json => exact absurd rfl other
  | dryRun =>
    rw [adds.options]
    exact .both (adds.with_options _)
  | _ => exact .both adds

end AddsJson

theorem Plain.turnOn_json (plain : Plain first) :
    first.turnOn .json = .ok { first with json := true, used := first.used ++ [.json] } := by
  simp [turnOn, markUsed, plain.unused, bind, Except.bind, pure, Except.pure]

theorem ne_json_of_takesValue (valued : flag.takesValue = true) : flag ≠ .json := by
  rintro rfl
  exact absurd valued (by decide)

/-- A step without the JSON flag is a step with it, unless it is the one that meets the flag. -/
theorem AddsJson.step (adds : AddsJson first second)
    (step : Step interface first argument first') :
    (∃ second', Step interface second argument second' ∧ AddsJson first' second') ∨
      argument = Flag.json.written.toList ∧ ∃ settled, first.settle = .ok settled ∧
        AddsJson settled first' := by
  cases step with
  | assigned member valued settle assign =>
    obtain ⟨settled, settle', adds⟩ := adds.settle.exists_second settle
    obtain ⟨second', assign', adds⟩ :=
      (adds.assign (ne_json_of_takesValue valued) _).exists_second assign
    exact Or.inl ⟨second', .assigned member valued settle' assign', adds⟩
  | announced member valued settle =>
    obtain ⟨settled, settle', adds⟩ := adds.settle.exists_second settle
    exact Or.inl ⟨_, .announced member valued settle',
      adds.awaiting (ne_json_of_takesValue valued) none⟩
  | @switched flag settled after member valueless proper settle turned =>
    by_cases json : flag = .json
    · subst json
      obtain ⟨_, -, adds⟩ := adds.settle.exists_second settle
      obtain rfl := Except.ok.inj (adds.plain.turnOn_json.symm.trans turned)
      exact Or.inr ⟨rfl, settled, settle, adds.plain.addsJson⟩
    · obtain ⟨settled', settle', adds⟩ := adds.settle.exists_second settle
      obtain ⟨second', turned', adds⟩ := (adds.turnOn json).exists_second turned
      exact Or.inl ⟨second', .switched member valueless proper settle' turned', adds⟩
  | supplied waits bare =>
    exact Or.inl ⟨_, .supplied (adds.waiting.trans waits) bare,
      adds.awaiting (adds.plain.awaited _ _ waits) _⟩

/-- A step with the JSON flag is one without it, as the flag is not met twice. -/
theorem AddsJson.step_back (adds : AddsJson first second)
    (step : Step interface second argument second') :
    ∃ first', Step interface first argument first' ∧ AddsJson first' second' := by
  cases step with
  | assigned member valued settle assign =>
    obtain ⟨settled, settle', adds⟩ := adds.settle.exists_first settle
    obtain ⟨first', assign', adds⟩ :=
      (adds.assign (ne_json_of_takesValue valued) _).exists_first assign
    exact ⟨first', .assigned member valued settle' assign', adds⟩
  | announced member valued settle =>
    obtain ⟨settled, settle', adds⟩ := adds.settle.exists_first settle
    exact ⟨_, .announced member valued settle', adds.awaiting (ne_json_of_takesValue valued) none⟩
  | @switched flag settled after member valueless proper settle turned =>
    obtain ⟨settled', settle', adds⟩ := adds.settle.exists_first settle
    by_cases json : flag = .json
    · subst json
      have met := (adds.used .json).mpr (Or.inl rfl)
      simp [Reading.turnOn, Reading.markUsed, met, bind, Except.bind] at turned
    · obtain ⟨first', turned', adds⟩ := (adds.turnOn json).exists_first turned
      exact ⟨first', .switched member valueless proper settle' turned', adds⟩
  | supplied waits bare =>
    have waits' := adds.waiting.symm.trans waits
    exact ⟨_, .supplied waits' bare, adds.awaiting (adds.plain.awaited _ _ waits') _⟩

theorem AddsJson.steps_back (adds : AddsJson first second)
    (steps : Steps interface second arguments second') :
    ∃ first', Steps interface first arguments first' ∧ AddsJson first' second' := by
  induction steps generalizing first with
  | done => exact ⟨first, .done first, adds⟩
  | next step later ih =>
    obtain ⟨middle, step', adds⟩ := adds.step_back step
    obtain ⟨first', later', adds⟩ := ih adds
    exact ⟨first', .next step' later', adds⟩

/-- The steps that lead to no JSON lead to JSON where the flag was met before. -/
theorem AddsJson.steps (adds : AddsJson first second)
    (steps : Steps interface first arguments first') :
    (∃ second', Steps interface second arguments second' ∧ AddsJson first' second') ∨
      ∃ without, AddsJson without first' := by
  induction steps generalizing second with
  | done => exact Or.inl ⟨second, .done second, adds⟩
  | next step later ih =>
    rcases adds.step step with ⟨middle, step', adds⟩ | ⟨-, settled, -, met⟩
    · rcases ih adds with ⟨second', later', adds⟩ | met
      · exact Or.inl ⟨second', .next step' later', adds⟩
      · exact Or.inr met
    · -- Once the flag is met it stays met.
      obtain ⟨without, -, adds⟩ := met.steps_back later
      exact Or.inr ⟨without, adds⟩

theorem waiting_of_assign (assign : first.assign flag value = .ok after) :
    after.waiting = first.waiting := by
  simp only [Reading.assign, bind_eq_ok_iff, Reading.markUsed] at assign
  obtain ⟨marked, mark, options, -, done⟩ := assign
  obtain rfl := Except.ok.inj done
  split at mark
  · cases mark
  · obtain rfl := Except.ok.inj mark
    rfl

/-- A reading whose last value is set has nothing left to set. -/
theorem settle_of_settle (settle : first.settle = .ok settled) :
    settled.waiting = none ∧ settled.settle = .ok settled := by
  have nothing : settled.waiting = none := by
    unfold Reading.settle at settle
    split at settle
    · next waits => exact Except.ok.inj settle ▸ waits
    · cases settle
    · exact waiting_of_assign settle
  refine ⟨nothing, ?_⟩
  rw [Reading.settle, nothing]

/-- It does not matter whether the last value is set at once or when the next flag comes. -/
theorem Steps.of_settle (settle : first.settle = .ok settled)
    (steps : Steps interface settled arguments last) :
    ∃ last', Steps interface first arguments last' ∧ last'.settle = last.settle := by
  obtain ⟨nothing, again⟩ := settle_of_settle settle
  have same {settled'} (settle' : settled.settle = .ok settled') : first.settle = .ok settled' := by
    rw [settle, ← settle', again]
  cases steps with
  | done => exact ⟨first, .done first, settle.trans again.symm⟩
  | next step later =>
    refine ⟨last, .next ?_ later, rfl⟩
    cases step with
    | assigned member valued settle' assign => exact .assigned member valued (same settle') assign
    | announced member valued settle' => exact .announced member valued (same settle')
    | switched member valueless proper settle' turned =>
      exact .switched member valueless proper (same settle') turned
    | supplied waits => simp [nothing] at waits

/-- Steps that lead to JSON meet its flag, and lead to the same options without it. -/
theorem Steps.exists_drop (steps : Steps interface first arguments last) (plain : Plain first)
    (settle : last.settle = .ok settled) (on : settled.json = true) :
    ∃ front back last' settled', arguments = front ++ Flag.json.written.toList :: back ∧
      Steps interface first (front ++ back) last' ∧ last'.settle = .ok settled' ∧
      AddsJson settled' settled := by
  induction steps with
  | done reading =>
    obtain ⟨_, -, adds⟩ := plain.addsJson.settle.exists_second settle
    simp [adds.plain.off] at on
  | next step later ih =>
    rcases plain.addsJson.step step with ⟨_, -, adds⟩ | ⟨rfl, early, settleFirst, adds⟩
    · obtain ⟨front, back, last', settled', rfl, later', settled⟩ := ih adds.plain settle
      exact ⟨_ :: front, back, last', settled', rfl, .next step later', settled⟩
    · -- This is the flag. Without it, the value before it is set when the next flag comes.
      obtain ⟨last', later', adds⟩ := adds.steps_back later
      obtain ⟨settled', settle', adds⟩ := adds.settle.exists_first settle
      obtain ⟨last'', steps, same⟩ := later'.of_settle settleFirst
      exact ⟨[], _, last'', settled', rfl, steps, same.trans settle', adds⟩

theorem plain_start : Plain {} := ⟨rfl, by simp, by simp⟩

end Reading

open Reading

/-- The JSON flag can be put before a command line that asks for a run without it. -/
theorem parse_json_cons {options : Options} (member : Flag.json ∈ interface.flags)
    (asked : parse interface arguments = .ok (.run options false)) :
    parse interface (Flag.json.written.toList :: arguments) = .ok (.run options true) := by
  obtain ⟨front, last, settled, whole, steps, settle, rfl, off⟩ := readAll_eq_run_iff.mp asked
  have start : Step interface {} Flag.json.written.toList _ :=
    .switched member rfl (by decide) rfl plain_start.turnOn_json
  rcases plain_start.addsJson.steps steps with ⟨last', steps', adds⟩ | ⟨without, adds⟩
  · obtain ⟨settled', settle', adds⟩ := adds.settle.exists_second settle
    exact readAll_eq_run_iff.mpr ⟨_ :: front, last', settled',
      whole.imp (congrArg _) (congrArg _), .next start steps', settle', adds.options, adds.on⟩
  · obtain ⟨_, -, adds⟩ := adds.settle.exists_first settle
    simp [adds.on] at off

/-- A command line that asks for a run in JSON has the flag, and asks for the same run without it.
-/
theorem exists_drop_of_parse {options : Options}
    (asked : parse interface arguments = .ok (.run options true)) :
    ∃ front back, arguments = front ++ Flag.json.written.toList :: back ∧
      parse interface (front ++ back) = .ok (.run options false) := by
  obtain ⟨whole, last, settled, split, steps, settle, rfl, on⟩ := readAll_eq_run_iff.mp asked
  obtain ⟨front, back, last', settled', rfl, steps', settle', adds⟩ :=
    steps.exists_drop plain_start settle on
  rcases split with rfl | rfl
  · exact ⟨front, back, rfl, readAll_eq_run_iff.mpr
      ⟨_, last', settled', Or.inl rfl, steps', settle', adds.options.symm, adds.plain.off⟩⟩
  · refine ⟨front, back ++ [['-', '-']], by simp, readAll_eq_run_iff.mpr
      ⟨_, last', settled', Or.inr ?_, steps', settle', adds.options.symm, adds.plain.off⟩⟩
    rw [List.append_assoc]

end Options

end RulePruner
