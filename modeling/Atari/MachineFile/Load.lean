import Atari.Failure
import Atari.MachineFile.Fields
import Atari.MachineFile.Variables

/-!
# Loading machine files

A machine file can include others. They come first, each behind those that it includes itself, and
the file that includes them takes precedence. No file is read a second time.

* `MachineFileError`: why a machine file cannot be loaded;
* `MachineFile.read`: one file;
* `MachineFile.order`: a file behind all that it includes;
* `MachineFile.load`: the files as one.
-/

namespace Atari

/-- Why a machine file cannot be loaded. -/
inductive MachineFileError
  | notFound (path : String) (e : FileError)
  | includeNotFound (path directory : String) (e : FileError)
  | circular (path : String)
  | unreadable (path : String) (e : FileError)
  | undefined (u : Undefined)
  | invalid (path : String) (e : YamlError)
  deriving DecidableEq, Repr

namespace MachineFileError

/-- How the error is told. -/
def failure : MachineFileError → Failure
  | notFound path e => ⟨"machine file not found: " ++ path, [.file e]⟩
  | includeNotFound path directory _ =>
    ⟨"machine file not found: " ++ path ++ ", included paths are relative to " ++ directory, []⟩
  | circular path => ⟨"circular include detected while loading machine file: " ++ path, []⟩
  | unreadable path e => ⟨"could not read machine file " ++ path, [.file e]⟩
  | undefined u => ⟨u.message, [.words "environment variable not found"]⟩
  | invalid path e => ⟨"failed to parse YAML from " ++ path, [.yaml e]⟩

/-- The error of the disk behind the error. -/
def fileError? : MachineFileError → Option FileError
  | notFound _ e | includeNotFound _ _ e | unreadable _ e => some e
  | circular _ | undefined _ | invalid _ _ => none

end MachineFileError

namespace MachineFile

variable (d : Disk) (e : Environment)

/-- The machine file at a path. -/
def read (path : String) : Except MachineFileError MachineFile := do
  let text ← (d.read path >>= Disk.decode).mapError (.unreadable path)
  let text ← (e.expand text).mapError .undefined
  (parse text).mapError (.invalid path)

/-- Machine files with their paths, and the numbers of those that were read. -/
abbrev Walk := List (String × MachineFile) × List (Fin d.size)

/-- Continues a walk with the machine file at a path, behind all that it includes. A file that was
read before is refused. Files are nested at most `left` deep, which is no limit when it is the number
of all files. -/
def visit : (left : Nat) → (path : String) → Walk d → Except MachineFileError (Walk d)
  | left, path, (files, seen) => do
    let i ← (d.resolve path).mapError (.notFound path)
    if seen.contains i then throw (.circular path)
    match left with
    | 0 => throw (.circular path)
    | left + 1 =>
      let f ← read d e path
      let directory := Path.parent path
      let (files, seen) ← (f.includes.getD []).foldlM (fun w name => do
        let below := Path.join directory name
        if let .error cause := d.locate below then throw (.includeNotFound name directory cause)
        visit left below w) (files, i :: seen)
      return (files ++ [(path, f)], seen)

/-- The machine files that a path leads to, each behind all that it includes. -/
def order (path : String) : Except MachineFileError (List (String × MachineFile)) := do
  return (← visit d e d.size path ([], [])).1

/-- The machine file at a path and all that it includes as one. -/
def load (path : String) : Except MachineFileError MachineFile := do
  return (← order d e path).foldl (fun all (path, f) => all.merge (f.inDirectory (Path.parent path))) {}

end MachineFile

end Atari
