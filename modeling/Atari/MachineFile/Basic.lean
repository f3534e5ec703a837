import Atari.AddressText
import Atari.Files.Path

/-!
# Machine files

What a machine file tells: the files to be loaded, where to start, where to stop and what to show
afterwards. Every field can be missing.

* `MachineFile`: the fields;
* `MachineFile.merge`: two machine files as one; the later one takes precedence, lists are joined;
* `MachineFile.startAddress`, `MachineFile.breakpointAddresses`: the addresses that texts stand for.
-/

namespace Atari

/-- A file to be loaded: bytes for an address, or an Atari binary. -/
structure Source where
  file : String
  address : Option String
  deriving DecidableEq, Repr

/-- A part of memory to be shown after a run. -/
structure DumpRequest where
  address : String
  length : Nat
  deriving DecidableEq, Repr

/-- The fields of a machine file. -/
structure MachineFile where
  name : Option String := none
  sources : Option (List Source) := none
  start : Option String := none
  breakpoints : Option (List String) := none
  maxSteps : Option Nat := none
  /-- The number of frames to be drawn on a display. -/
  frames : Option Nat := none
  dumps : Option (List DumpRequest) := none
  /-- The paths of other machine files. -/
  includes : Option (List String) := none
  deriving DecidableEq, Repr, Inhabited

/-- Two lists as one; it is missing only if both are. -/
def joinLists {α : Type} : Option (List α) → Option (List α) → Option (List α)
  | some xs, some ys => some (xs ++ ys)
  | some xs, none => some xs
  | none, ys => ys

namespace MachineFile

/-- Two machine files as one. The later one takes precedence, and lists are joined. -/
def merge (earlier later : MachineFile) : MachineFile where
  name := later.name <|> earlier.name
  sources := joinLists earlier.sources later.sources
  start := later.start <|> earlier.start
  breakpoints := joinLists earlier.breakpoints later.breakpoints
  maxSteps := later.maxSteps <|> earlier.maxSteps
  frames := later.frames <|> earlier.frames
  dumps := joinLists earlier.dumps later.dumps
  includes := none

/-- The machine file with the paths of its files taken from a directory. -/
def inDirectory (directory : String) (f : MachineFile) : MachineFile :=
  { f with sources := f.sources.map (·.map fun s => { s with file := Path.join directory s.file }) }

/-- The address to start at. -/
def startAddress (f : MachineFile) : Except AddressTextError (Option Address) :=
  match f.start with
  | some text => (Address.parse text).map some
  | none => .ok none

def breakpointAddresses (f : MachineFile) : Except AddressTextError (List Address) :=
  (f.breakpoints.getD []).mapM Address.parse

end MachineFile

end Atari
