import Atari.Files.Disk
import Atari.Yaml.Error

/-!
# Failures

How an error is told: a message, and what stands behind it.

* `Cause`, `Failure`: what is told;
* `Failure.lines`: the lines that tell it.
-/

namespace Atari

/-- What stands behind an error. -/
inductive Cause
  | file (e : FileError)
  | yaml (e : YamlError)
  | words (s : String)
  deriving DecidableEq, Repr

/-- The text that reports the cause. -/
def Cause.message : Cause → String
  | file e => e.message
  | yaml e => e.message
  | words s => s

/-- An error with its causes, the nearest first. -/
structure Failure where
  message : String
  causes : List Cause := []
  deriving DecidableEq, Repr

namespace Failure

/-- A text with `first` in front of its first line and `other` in front of the others. -/
def indent (first other text : String) : String :=
  first ++ String.ofList (text.toList.flatMap fun c => if c = '\n' then '\n' :: other.toList else [c])

/-- The text of a cause. Several causes are numbered. -/
def causeText (numbered : Bool) (number : Nat) (c : Cause) : String :=
  if numbered then
    indent (String.ofList (List.replicate (5 - (toString number).length) ' ') ++ toString number ++ ": ")
      "       " c.message
  else indent "    " "    " c.message

/-- The texts that tell the failure, for lines of their own. -/
def lines (f : Failure) : List String :=
  ("Error: " ++ f.message) :: match f.causes with
    | [] => []
    | causes => "" :: "Caused by:" :: causes.mapIdx (causeText (1 < causes.length))

end Failure

end Atari
