import RulePruner.Options.Flag
import RulePruner.Options.Similarity

/-!
Reading a command line. A flag is written behind two dashes, with its value behind an equals sign
or as the next argument. A value given as the next argument is only checked when the next flag
comes or the arguments end, so that an unknown flag right after it is refused first.
-/

namespace RulePruner

/-- Why a command line is refused. -/
inductive UsageError where
  /-- An argument that nothing stands for, with a flag of a similar name, and the flags that were
  in use or are advised. -/
  | unknown (argument : Text) (similar : Option Flag) (used : List Flag)
  /-- A flag without the value that it takes. -/
  | valueMissing (flag : Flag)
  /-- A strategy that does not exist. -/
  | modeUnknown (value : Text)
  /-- A flag that is given twice. -/
  | repeated (flag : Flag)
  /-- A value for a flag that takes none, with the flags that were set before. -/
  | valueUnexpected (flag : Flag) (value : Text) (used : List Flag)
  deriving DecidableEq, Repr

/-- What a command line asks for. -/
inductive Request where
  /-- A run, reported in JSON or not. -/
  | run (options : Options) (json : Bool)
  /-- Help, in detail or in brief. -/
  | help (detailed : Bool)
  deriving DecidableEq, Repr

namespace Options

/-- The options with the value of one flag set. -/
def setValue (options : Options) (flag : Flag) (value : Text) : Except UsageError Options :=
  if value = [] then .error (.valueMissing flag)
  else
    match flag with
    | .classList => .ok { options with classList := value }
    | .stylesheet => .ok { options with stylesheet := value }
    | .mode =>
      match Strategy.ofName? (String.ofList value) with
      | some strategy => .ok { options with strategy := strategy }
      | none => .error (.modeUnknown value)
    | .dryRun | .json | .help => .ok options

/-- The arguments read so far. -/
structure Reading where
  options : Options := {}
  json : Bool := false
  /-- The flags that are set, in order. -/
  used : List Flag := []
  /-- The last flag, if its value is to come or is not yet checked. -/
  waiting : Option (Flag × Option Text) := none
  deriving DecidableEq, Repr

namespace Reading

/-- Marks a flag as used, which can be done once. -/
def markUsed (reading : Reading) (flag : Flag) : Except UsageError Reading :=
  if flag ∈ reading.used then .error (.repeated flag)
  else .ok { reading with used := reading.used ++ [flag] }

/-- Sets the value of a flag. -/
def assign (reading : Reading) (flag : Flag) (value : Text) : Except UsageError Reading := do
  let marked ← reading.markUsed flag
  let options ← marked.options.setValue flag value
  return { marked with options := options }

/-- Checks and sets the value of the last flag, if that is still to be done. -/
def settle (reading : Reading) : Except UsageError Reading :=
  match reading.waiting with
  | none => .ok reading
  | some (flag, none) => .error (.valueMissing flag)
  | some (flag, some value) => { reading with waiting := none }.assign flag value

/-- The flags in use when an unknown flag is met. One that was just repeated counts as unused. -/
def usedByNow (reading : Reading) : List Flag :=
  match reading.waiting with
  | some (flag, some _) =>
    if flag ∈ reading.used then reading.used.erase flag else reading.used ++ [flag]
  | _ => reading.used

/-- Sets a flag that takes no value. -/
def turnOn (reading : Reading) (flag : Flag) : Except UsageError Reading := do
  let marked ← reading.markUsed flag
  match flag with
  | .dryRun => return { marked with options := { marked.options with dryRun := true } }
  | .json => return { marked with json := true }
  | _ => return marked

/-- The refusal of an unknown flag. -/
def unknownFlag (interface : Interface) (reading : Reading) (name : Text) : UsageError :=
  let similar := Similarity.best? (fun flag => flag.name.toList) interface.flags name
  let used := reading.usedByNow
  .unknown ('-' :: '-' :: name) similar (similar.elim used (Flag.addTo used))

/-- Reads the remaining arguments. -/
def readAll (interface : Interface) (reading : Reading) : List Text → Except UsageError Request
  | [] => do
    let settled ← reading.settle
    return .run settled.options settled.json
  | ['-', '-'] :: [] => do
    let settled ← reading.settle
    return .run settled.options settled.json
  | ['-', '-'] :: argument :: _ => .error (.unknown argument none [])
  | ('-' :: '-' :: body) :: arguments => do
    let name := body.takeWhile (· ≠ '=')
    let value? := match body.dropWhile (· ≠ '=') with
      | [] => none
      | _ :: value => some value
    match interface.flag? name, value? with
    | none, _ => .error (unknownFlag interface reading name)
    | some flag, some value =>
      if flag.takesValue then
        let settled ← reading.settle
        let assigned ← settled.assign flag value
        assigned.readAll interface arguments
      else
        .error (.valueUnexpected flag value reading.used)
    | some flag, none =>
      let settled ← reading.settle
      if flag.takesValue then
        readAll interface { settled with waiting := some (flag, none) } arguments
      else if flag = .help then return .help true
      else
        let switched ← settled.turnOn flag
        switched.readAll interface arguments
  | ('-' :: c :: _) :: _ =>
    if c = 'h' then do
      let _ ← reading.settle
      return .help false
    else .error (.unknown ['-', c] none [])
  | argument :: arguments =>
    match reading.waiting with
    | some (flag, none) =>
      readAll interface { reading with waiting := some (flag, some argument) } arguments
    | _ => .error (.unknown argument none [])

end Reading

/-- What the arguments of a program ask for. -/
def parse (interface : Interface) (arguments : List Text) : Except UsageError Request :=
  ({} : Reading).readAll interface arguments

end Options

end RulePruner
