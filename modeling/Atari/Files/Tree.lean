import Atari.Files.Disk

/-!
# File trees

Files below one directory, which is also the working directory. A path is walked name by name; every name
but the last has to be a directory. Outside of the tree there are the directories above it, the root of the
system with the directories that every system has, and the empty device.

* `Place`: where something stands; `Place.step`: the place that a name leads to;
* `FileTree.walk`: the place that a path leads to;
* `FileTree.disk`: the tree as a disk.
-/

namespace Atari

/-- Where something stands: the names on the way from the top of the tree. -/
abbrev Place := List (List Char)

namespace Place

/-- Any of the directories above the tree. -/
def above : Place := [['.', '.']]

def root : Place := [['/']]

/-- The directories in the root of every system. -/
def inRoot : List Place :=
  ["bin", "dev", "etc", "home", "lib", "opt", "proc", "root", "run", "sbin", "sys", "tmp", "usr",
    "var"].map fun name => root ++ [name.toList]

def emptyDevice : Place := root ++ ["dev".toList, "null".toList]

/-- The place that a name leads to from a place. -/
def step (p : Place) (n : List Char) : Place :=
  if Path.isIdle n then p
  else if n = ['.', '.'] then
    if p = [] ∨ p = above then above else if p = root then root else p.dropLast
  else p ++ [n]

/-- The places on the way along names, with the start and the end. -/
def way (p : Place) : List (List Char) → List Place
  | [] => [p]
  | n :: ns => p :: way (p.step n) ns

end Place

/-- Files with their places, and the directories. -/
structure FileTree where
  files : List (Place × List Byte)
  directories : List Place

namespace FileTree

/-- The tree of files with their paths; a later file takes the place of an earlier one. -/
def ofFiles (files : List (String × List Byte)) : FileTree where
  files := (Place.emptyDevice, []) ::
    files.reverse.map fun (path, bytes) => ((Path.names path.toList).foldl Place.step [], bytes)
  directories := [] :: Place.above :: Place.root :: Place.inRoot ++
    files.flatMap fun (path, _) => (Place.way [] (Path.names path.toList)).dropLast

/-- The number of bytes in a name at most. -/
def maxName : Nat := 255

/-- Whether a file stands at a place. -/
def isFile (t : FileTree) (p : Place) : Bool := t.files.any (·.1 == p)

def places (t : FileTree) : List Place := (t.directories ++ t.files.map (·.1)).eraseDups

/-- The place that names lead to from a place. -/
def walk (t : FileTree) : Place → List (List Char) → Except FileError Place
  | p, [] => .ok p
  | p, n :: ns =>
    if t.isFile p then .error .notDirectory
    else if maxName < (String.ofList n).utf8ByteSize then .error .tooLong
    else if t.places.contains (p.step n) then walk t (p.step n) ns
    else .error .notFound

/-- The bytes at a place. -/
def contentAt (t : FileTree) (p : Place) : Except FileError (List Byte) :=
  match t.files.lookup p with
  | some bytes => .ok bytes
  | none => .error .isDirectory

/-- The number of the place that a path leads to. -/
def find (t : FileTree) (path : String) : Except FileError (Fin t.places.length) :=
  if path = "" then .error .notFound
  else do
    let p ← t.walk (if Path.isAbsolute path then .root else []) (Path.names path.toList)
    match t.places.finIdxOf? p with
    | some i => .ok i
    | none => .error .notFound

/-- The tree as a disk. -/
def disk (t : FileTree) : Disk where
  size := t.places.length
  content i := t.contentAt t.places[i]
  find := t.find

end FileTree

end Atari
