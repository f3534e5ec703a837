import Atari.CommandLine.Result
import Atari.Files.Snapshot

/-!
# The program

Runs the command that its words ask for. The command is worked out on the files and variables seen so
far; whenever it meets one that was not, the program looks and starts the command anew. Nothing is
printed before the command is done.
-/

namespace Atari

/-- An error of the system as an error of a disk. -/
def FileError.ofSystem : IO.Error → FileError
  | .noFileOrDirectory _ _ _ => .notFound
  | .inappropriateType _ 20 _ => .notDirectory
  | .inappropriateType _ _ _ => .isDirectory
  | .permissionDenied _ _ _ => .denied
  | e => .other (toString e)

/-- What stands at a path. -/
def look (path : String) : IO (Except FileError (String × Except FileError (List Byte))) := do
  match ← (IO.FS.realPath path).toBaseIO with
  | .error e => return .error (.ofSystem e)
  | .ok name =>
    let content ← (IO.FS.readBinFile path).toBaseIO
    return .ok (name.toString, (content.map (·.toList)).mapError .ofSystem)

/-- The outcome of a command, which starts anew with each file or variable that it did not see. -/
partial def outcome (a : Arguments) (seen : Snapshot) (e : Environment) : IO CommandResult := do
  let level := if a.verbose then Level.debug else Level.info
  let result := a.command.result seen.disk e (some level)
  match result.error with
  | some (.machineFile (.undefined u)) =>
    match ← IO.getEnv u.name with
    | some value => outcome a seen ((u.name, value) :: e)
    | none => return result
  | some error => match error.fileError? with
    | some (.unread path) => outcome a (seen.add path (← look path)) e
    | _ => return result
  | none => return result

end Atari

/-- Runs the command of the words and returns its exit code. -/
def main (words : List String) : IO UInt32 := do
  match Atari.Arguments.parse words with
  | .error e =>
    IO.eprintln ("error: " ++ e.message)
    return 2
  | .ok a =>
    let result ← Atari.outcome a {} []
    for r in result.log do
      IO.eprintln r.text
    for line in result.printed do
      IO.println line
    match result.error with
    | none => return 0
    | some e =>
      for line in e.failure.lines do
        IO.eprintln line
      return 1
