import RulePruner.Options.Basic

/-!
The flags of the command line: how each is written, whether it takes a value, and what help says
about it. An interface is a program name with the flags that the program accepts.
-/

namespace RulePruner

/-- A flag of the command line. -/
inductive Flag where
  | classList
  | stylesheet
  | mode
  | dryRun
  | json
  | help
  deriving DecidableEq, Repr

namespace Flag

/-- The name of a flag, which is written behind two dashes. -/
def name : Flag → String
  | classList => "class-list"
  | stylesheet => "stylesheet"
  | mode => "mode"
  | dryRun => "dry-run"
  | json => "json"
  | help => "help"

/-- What stands for the value of a flag in usage texts, if the flag takes one. -/
def placeholder? : Flag → Option String
  | classList => some "CLASS_LIST"
  | stylesheet => some "STYLESHEET"
  | mode => some "MODE"
  | dryRun | json | help => none

/-- Whether a flag takes a value. -/
def takesValue (flag : Flag) : Bool := flag.placeholder?.isSome

/-- A flag as it is written. -/
def written (flag : Flag) : String := "--" ++ flag.name

/-- What stands behind a flag where its value belongs. -/
def operand (flag : Flag) : String :=
  match flag.placeholder? with
  | some placeholder => " <" ++ placeholder ++ ">"
  | none => ""

/-- A flag as usage texts show it. -/
def shown (flag : Flag) : String := flag.written ++ flag.operand

/-- Whether a flag sets an option of a run, rather than choosing what is reported. -/
def setsOption : Flag → Bool
  | classList | stylesheet | mode | dryRun => true
  | json | help => false

/-- A list of flags with one more at its end, unless the flag is in it. -/
def addTo (flags : List Flag) (flag : Flag) : List Flag :=
  if flag ∈ flags then flags else flags ++ [flag]

/-- The value that a flag has when it is not given. -/
def default? : Flag → Option String
  | classList => some (String.ofList ({} : Options).classList)
  | stylesheet => some (String.ofList ({} : Options).stylesheet)
  | mode => some ({} : Options).strategy.name
  | dryRun | json | help => none

/-- The values that a flag can have, each with its meaning, where they can be listed. -/
def choices : Flag → List (String × String)
  | mode => Strategy.all.map fun strategy => (strategy.name,
      match strategy with
      | .balanced => "Track brace depth so blocks with any amount of nesting are consumed whole"
      | .fast => "Single regex per class; only one level of inner braces is recognized")
  | _ => []

/-- What help says about a flag. Help itself comes in two lengths, each of which names the
other. -/
def about (detailed : Bool) : Flag → String
  | classList => "File with one class name per line (no leading dot)"
  | stylesheet => "Stylesheet to prune; overwritten in place"
  | mode => "Block matching strategy"
  | dryRun => "Report what would be removed without touching the stylesheet"
  | json => "Print the result as JSON instead of the text summary"
  | help => if detailed then "Print help (see a summary with '-h')"
      else "Print help (see more with '--help')"

end Flag

/-- A program as its command line shows it. -/
structure Interface where
  /-- The name under which it is called. -/
  name : String
  /-- What it says about itself. -/
  about : Option String
  /-- The flags that it accepts, in the order of its help. -/
  flags : List Flag

namespace Interface

/-- The interface that sets the options of a run and nothing else. -/
def options : Interface where
  name := "prune"
  about := none
  flags := [.classList, .stylesheet, .mode, .dryRun, .help]

/-- The interface of the whole program, which can report in JSON as well. -/
def program : Interface where
  name := "cssprune"
  about := some "Remove unused CSS class rules from a stylesheet"
  flags := [.classList, .stylesheet, .mode, .dryRun, .json, .help]

/-- The flag of a given name. -/
def flag? (interface : Interface) (name : Text) : Option Flag :=
  interface.flags.find? fun flag => flag.name.toList = name

end Interface

end RulePruner
