import Atari.Files.Path
import Atari.Value

/-!
# Disks

Files and directories, and what reading them comes to. They are numbered, so that two paths to the
same file are seen to be the same.

* `FileError`: why a file cannot be read;
* `Disk`: what stands on it, and which number a path leads to;
* `Disk.resolve`: the number of what a path leads to, name by name;
* `Disk.locate`, `Disk.read`: what stands at a path, for use, and its bytes. Longer paths can be resolved
  than used.
-/

namespace Atari

/-- Why a file cannot be read. -/
inductive FileError
  | notFound
  | notDirectory
  | isDirectory
  | denied
  /-- The path or one of its names is too long. -/
  | tooLong
  /-- The path holds the character that ends one. -/
  | holdsEnd
  /-- The bytes are no text. -/
  | invalidText
  /-- Something else, as the system words it. -/
  | other (words : String)
  /-- Nobody has looked at the path yet. -/
  | unread (path : String)
  deriving DecidableEq, Repr, Inhabited

/-- The text that reports the error. -/
def FileError.message : FileError → String
  | notFound => "No such file or directory (os error 2)"
  | notDirectory => "Not a directory (os error 20)"
  | isDirectory => "Is a directory (os error 21)"
  | denied => "Permission denied (os error 13)"
  | tooLong => "File name too long (os error 36)"
  | holdsEnd => "file name contained an unexpected NUL byte"
  | invalidText => "stream did not contain valid UTF-8"
  | other words => words
  | unread path => "'" ++ path ++ "' was not looked at"

/-- The files and directories of a disk. -/
structure Disk where
  size : Nat
  /-- The bytes of a file. -/
  content : Fin size → Except FileError (List Byte)
  /-- The number that a path leads to. -/
  find : String → Except FileError (Fin size)

namespace Disk

def empty : Disk := ⟨0, fun i => i.elim0, fun _ => .error .notFound⟩

instance : Inhabited Disk := ⟨empty⟩

/-- The number of bytes in a path that is used at most. -/
def maxPath : Nat := 4095

/-- The number that a path leads to. -/
def resolve (d : Disk) (path : String) : Except FileError (Fin d.size) :=
  if Path.holdsEnd path then .error .holdsEnd else d.find path

/-- The number of what is used under a path. -/
def locate (d : Disk) (path : String) : Except FileError (Fin d.size) :=
  if !Path.holdsEnd path && maxPath < path.utf8ByteSize then .error .tooLong else d.resolve path

/-- The bytes of the file at a path. -/
def read (d : Disk) (path : String) : Except FileError (List Byte) := d.locate path >>= d.content

/-- The text in some bytes. -/
def decode (bytes : List Byte) : Except FileError String :=
  match String.fromUTF8? ⟨bytes.toArray⟩ with
  | some s => .ok s
  | none => .error .invalidText

end Disk

end Atari
