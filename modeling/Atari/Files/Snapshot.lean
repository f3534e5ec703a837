import Atari.Files.Disk

/-!
# Snapshots

The paths that somebody has looked at, and what stood there. A path that nobody has looked at is told
apart from one where nothing stands.

* `Snapshot`: what was seen; `Snapshot.add`: one more path;
* `Snapshot.disk`: what was seen as a disk.
-/

namespace Atari

/-- What was seen on a disk. -/
structure Snapshot where
  /-- The files under their full names. -/
  files : List (String × Except FileError (List Byte)) := []
  /-- The paths with the full names that they lead to. -/
  paths : List (String × Except FileError String) := []

namespace Snapshot

/-- A snapshot with one more path, and with the file that it leads to. -/
def add (s : Snapshot) (path : String)
    (seen : Except FileError (String × Except FileError (List Byte))) : Snapshot where
  files := match seen with
    | .ok file => s.files ++ [file]
    | .error _ => s.files
  paths := (path, seen.map (·.1)) :: s.paths

/-- The number of the file that a path leads to: the first one of its full name. -/
def find (s : Snapshot) (path : String) : Except FileError (Fin s.files.length) :=
  match s.paths.lookup path with
  | none => .error (.unread path)
  | some (.error e) => .error e
  | some (.ok name) => match s.files.findFinIdx? (·.1 = name) with
    | some i => .ok i
    | none => .error (.unread path)

/-- What was seen as a disk. -/
def disk (s : Snapshot) : Disk where
  size := s.files.length
  content i := s.files[i].2
  find := s.find

end Snapshot

end Atari
