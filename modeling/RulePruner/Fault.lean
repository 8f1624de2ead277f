/-!
Faults: the refusals of files and of writers.
-/

namespace RulePruner

/-- A refusal of a file or of a writer. -/
inductive Fault where
  | notFound
  | isDirectory
  | notDirectory
  | fileTooLarge
  | notUtf8
  | writerFull
  | flushFailed
  /-- Any other refusal, in the words of the system. -/
  | other (message : String)
  deriving DecidableEq, Repr

/-- The wording of a fault. -/
def Fault.message : Fault → String
  | notFound => "No such file or directory (os error 2)"
  | isDirectory => "Is a directory (os error 21)"
  | notDirectory => "Not a directory (os error 20)"
  | fileTooLarge => "File too large (os error 27)"
  | notUtf8 => "stream did not contain valid UTF-8"
  | writerFull => "writer full"
  | flushFailed => "flush failed"
  | other message => message

end RulePruner
