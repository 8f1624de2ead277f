import RulePruner.Options.Parser
import RulePruner.Text.Styled

/-!
The texts of the command line: usage, help in two lengths, and refusals. All of them are styled;
who shows them decides whether the styles are kept.
-/

namespace RulePruner

namespace Interface

/-- A flag in a usage line or in help, where its name stands out. -/
def styledFlag (flag : Flag) : Styled :=
  Style.strong.of flag.written ++ Style.plain.of flag.operand

/-- The flags that set options of a run, of which one or the other is to be given. -/
def optionGroup (interface : Interface) : Styled :=
  let members := interface.flags.filter Flag.setsOption
  Style.plain.of ("<" ++ "|".intercalate (members.map Flag.shown) ++ ">")

/-- The usage line with the given arguments. -/
def usageWith (interface : Interface) (arguments : List Styled) : Styled :=
  Style.heading.of "Usage:" ++ Style.plain.of " " ++
    Styled.joined " " (Style.strong.of interface.name :: arguments)

/-- The usage line, which shows either the given flags or that there are some. -/
def usage (interface : Interface) (flags : List Flag) : Styled :=
  interface.usageWith
    (if flags.isEmpty then [Style.plain.of "[OPTIONS]"] else flags.map styledFlag)

/-- The usage line for a flag that comes behind others. Once one of those sets an option of the
run, the flags that do are shown as a group. -/
def usageBehind (interface : Interface) (used : List Flag) (flag : Flag) : Styled :=
  let shown := Flag.addTo used flag
  if used.any Flag.setsOption then
    interface.usageWith
      ((shown.filter (!·.setsOption)).map styledFlag ++ [interface.optionGroup])
  else interface.usage shown

/-- A flag as help lists it, with its short form where there is one. -/
def entry (flag : Flag) : Styled :=
  (if flag = .help then Style.plain.of "  " ++ Style.strong.of "-h" ++ Style.plain.of ", "
    else Style.plain.of "      ") ++ styledFlag flag

/-- The names of the values that a flag can have. -/
def choiceNames (style : Style) (flag : Flag) : Styled :=
  Styled.joined ", " (flag.choices.map fun choice => style.of choice.1)

/-- The margin of the paragraphs of detailed help. -/
def margin : String := String.ofList (List.replicate 10 ' ')

/-- The line of detailed help about one value of a flag, with its meaning from a given column
on. -/
def choiceLine (column : Nat) (choice : String × String) : Styled :=
  Style.plain.of (margin ++ "- ") ++
    Styled.padded column (Style.strong.of choice.1 ++ Style.plain.of ":") ++
    Style.plain.of (" " ++ choice.2 ++ "\n")

/-- The paragraphs of detailed help about a flag. -/
def detailedEntry (flag : Flag) : Styled :=
  let column := (flag.choices.map fun choice => choice.1.length + 1).foldl max 0
  let listing := if flag.choices.isEmpty then []
    else Style.plain.of ("\n" ++ margin ++ "Possible values:\n") ++
      (flag.choices.map (choiceLine column)).flatten
  let default := match flag.default? with
    | some value => margin ++ "\n" ++ margin ++ "[default: " ++ value ++ "]\n"
    | none => ""
  entry flag ++ Style.plain.of ("\n" ++ margin ++ flag.about true ++ "\n") ++ listing ++
    Style.plain.of default

/-- The line of brief help about a flag, with what it says from a given column on. -/
def briefEntry (column : Nat) (flag : Flag) : Styled :=
  let default := match flag.default? with
    | some value => " [default: " ++ value ++ "]"
    | none => ""
  let choices := if flag.choices.isEmpty then []
    else Style.plain.of " [possible values: " ++ choiceNames .plain flag ++ Style.plain.of "]"
  Styled.padded column (entry flag) ++ Style.plain.of ("  " ++ flag.about false ++ default) ++
    choices ++ Style.plain.of "\n"

/-- The help text. -/
def help (interface : Interface) (detailed : Bool) : Styled :=
  let head := match interface.about with
    | some about => about ++ "\n\n"
    | none => ""
  let column := (interface.flags.map fun flag => (entry flag).bare.length).foldl max 0
  let entries := if detailed then Styled.joined "\n" (interface.flags.map detailedEntry)
    else (interface.flags.map (briefEntry column)).flatten
  Style.plain.of head ++ interface.usage [] ++ Style.plain.of "\n\n" ++
    Style.heading.of "Options:" ++ Style.plain.of "\n" ++ entries

end Interface

namespace UsageError

/-- A styled string between quotes. -/
def quoted (style : Style) (s : String) : Styled :=
  Style.plain.of "'" ++ style.of s ++ Style.plain.of "'"

/-- The first line of a refusal. -/
def headline : UsageError → Styled
  | unknown argument _ _ =>
    Style.plain.of "unexpected argument " ++ quoted .invalid (String.ofList argument) ++
      Style.plain.of " found"
  | valueMissing flag =>
    Style.plain.of "a value is required for " ++ quoted .invalid flag.shown ++
      Style.plain.of " but none was supplied"
  | modeUnknown value =>
    Style.plain.of "invalid value " ++ quoted .invalid (String.ofList value) ++
      Style.plain.of " for " ++ quoted .strong Flag.mode.shown
  | repeated flag =>
    Style.plain.of "the argument " ++ quoted .invalid flag.shown ++
      Style.plain.of " cannot be used multiple times"
  | valueUnexpected flag value _ =>
    Style.plain.of "unexpected value " ++ quoted .invalid (String.ofList value) ++
      Style.plain.of " for " ++ quoted .strong flag.shown ++
      Style.plain.of " found; no more were expected"

/-- The list of the values that a flag can have, if they can be listed. -/
def choicesOf (flag : Flag) : Styled :=
  if flag.choices.isEmpty then []
  else Style.plain.of "\n  [possible values: " ++ Interface.choiceNames .valid flag ++
    Style.plain.of "]"

/-- The values that would have been right. -/
def choices : UsageError → Styled
  | valueMissing flag => choicesOf flag
  | modeUnknown _ => choicesOf .mode
  | unknown .. | repeated _ | valueUnexpected .. => []

/-- The advice that something similar exists. -/
def advice (kind similar : String) : Styled :=
  Style.plain.of "\n\n  " ++ Style.valid.of "tip:" ++
    Style.plain.of (" a similar " ++ kind ++ " exists: ") ++ quoted .valid similar

/-- A similar argument or value that may have been meant. -/
def tip : UsageError → Styled
  | unknown _ (some flag) _ => advice "argument" flag.written
  | modeUnknown value =>
    match Similarity.best? (fun strategy => strategy.name.toList) Strategy.all value with
    | some strategy => advice "value" strategy.name
    | none => []
  | unknown _ none _ | valueMissing _ | repeated _ | valueUnexpected .. => []

/-- The usage line, where the refusal is not about a value that is wrong or missing. -/
def usage (interface : Interface) : UsageError → Styled
  | unknown _ _ used => Style.plain.of "\n\n" ++ interface.usage used
  | repeated _ => Style.plain.of "\n\n" ++ interface.usage []
  | valueUnexpected flag _ used => Style.plain.of "\n\n" ++ interface.usageBehind used flag
  | valueMissing _ | modeUnknown _ => []

/-- The text of a refusal. -/
def message (interface : Interface) (error : UsageError) : Styled :=
  Style.alarm.of "error:" ++ Style.plain.of " " ++ error.headline ++ error.choices ++ error.tip ++
    error.usage interface ++ Style.plain.of "\n\nFor more information, try " ++
    quoted .strong "--help" ++ Style.plain.of ".\n"

end UsageError

end RulePruner
