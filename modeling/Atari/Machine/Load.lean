import Atari.Binary
import Atari.Failure
import Atari.Machine.Basic
import Atari.MachineFile.Basic

/-!
# Loading machines

How a machine file becomes a machine: its files are stored in memory one after the other, the
processor is reset and set to the start, and breakpoints and the display are installed.

* `LoadError`: why this fails; `Loading`: a computation on the processor that may fail so;
* `Source.load`: stores one file;
* `Machine.ofFile`: the machine of a machine file.
-/

namespace Atari

/-- Why files cannot be loaded into memory. -/
inductive LoadError
  | address (e : AddressTextError)
  | unreadable (file : String) (e : FileError)
  | unreadableBinary (file : String) (e : FileError)
  | noBinary (file : String) (e : BinaryError)
  | unloadable (file : String) (a : Address) (e : MemoryError)
  /-- There is no screen, with the words that say why. -/
  | screen (words : String)
  deriving DecidableEq, Repr

namespace LoadError

/-- How the error is told. -/
def failure : LoadError → Failure
  | address e => ⟨e.message, []⟩
  | unreadable file e => ⟨"could not read '" ++ file ++ "'", [.file e]⟩
  | unreadableBinary file e => ⟨"could not read Atari binary '" ++ file ++ "'", [.file e]⟩
  | noBinary file e => ⟨"could not parse Atari binary '" ++ file ++ "'", [.words e.message]⟩
  | unloadable file a e =>
    ⟨"could not load '" ++ file ++ "' at " ++ a.text, [.words e.message]⟩
  | screen words => ⟨words, []⟩

/-- The error of the disk behind the error. -/
def fileError? : LoadError → Option FileError
  | unreadable _ e | unreadableBinary _ e => some e
  | address _ | noBinary _ _ | unloadable _ _ _ | screen _ => none

end LoadError

/-- A computation on the processor that may fail; the state is kept when it does. -/
abbrev Loading := EStateM LoadError Processor

namespace Loading

/-- A result that may be an error. -/
def lift {α : Type} : Except LoadError α → Loading α
  | .ok x => pure x
  | .error e => throw e

def note (level : Level) (body : String) : Loading Unit :=
  modify (·.onBoard (·.note level fun _ => body))

/-- Stores the bytes of a file. -/
def store (file : String) (a : Address) (data : List Byte) : Loading Unit := do
  let p ← get
  match p.board.poke a data with
  | .ok b => set { p with board := b }
  | .error e => throw (.unloadable file a e)

end Loading

namespace Source

/-- Stores the bytes of a file at an address. -/
def loadAt (d : Disk) (file text : String) : Loading Unit := do
  let a ← Loading.lift ((Address.parse text).mapError .address)
  let data ← Loading.lift ((d.read file).mapError (.unreadable file))
  Loading.store file a data
  Loading.note .info
    ("loaded " ++ toString data.length ++ " bytes from '" ++ file ++ "' at " ++ a.text)

/-- Stores one segment of an Atari binary. -/
def loadSegment (file : String) (s : Segment) : Loading Unit := do
  Loading.store file s.address s.data
  Loading.note .debug
    ("'" ++ file ++ "': " ++ toString s.data.length ++ " bytes at " ++ s.address.text)

/-- Stores the segments of an Atari binary and tells the address of its program. -/
def loadBinary (d : Disk) (file : String) : Loading (Option Address) := do
  let data ← Loading.lift ((d.read file).mapError (.unreadableBinary file))
  let binary ← Loading.lift ((Binary.parse data).mapError (.noBinary file))
  binary.segments.forM (loadSegment file)
  if let some a := binary.initAddress then
    Loading.note .warn ("'" ++ file ++ "': init routine at " ++ a.text ++ " is not run")
  Loading.note .info
    ("loaded " ++ toString binary.segments.length ++ " segment(s) from '" ++ file ++ "'")
  return binary.runAddress

/-- Stores a file. The last Atari binary that tells the address of its program wins over the address
`run` found before. -/
def load (d : Disk) (run : Option Address) (s : Source) : Loading (Option Address) :=
  match s.address with
  | some text => do
    loadAt d s.file text
    return run
  | none => do return (← loadBinary d s.file) <|> run

end Source

namespace Machine

/-- The step limit of a machine file that sets none. -/
def defaultMaxSteps : Nat := 1000000

/-- The name of a machine whose file sets none. -/
def defaultName : String := "machine"

/-- Prepares a processor. The screen is asked for only if there is a display. -/
def prepare (d : Disk) (screen : Except String Screen) (f : MachineFile) : Loading Unit := do
  let run ← (f.sources.getD []).foldlM (Source.load d) none
  modify Processor.reset
  let start ← Loading.lift (f.startAddress.mapError .address)
  if let some a := start <|> run then modify (·.setPc a)
  let p ← get
  Loading.note .info (p.name ++ ": starting at " ++ p.pc.text)
  for a in ← Loading.lift (f.breakpointAddresses.mapError .address) do
    modify fun p => (p.addBreakpoint ⟨some a, none⟩ .stop).2
  if f.frames.isSome then
    let screen ← Loading.lift (screen.mapError .screen)
    modify (·.onBoard fun b =>
      let (number, b) := b.addDisplay (.on screen)
      b.install number)

/-- The machine of a machine file, with a log of at most the given level. The log is told beside an
error, too. -/
def ofFile (d : Disk) (screen : Except String Screen) (verbosity : Option Level) (f : MachineFile) :
    Except (LoadError × List LogRecord) Machine :=
  let p : Processor := { name := f.name.getD defaultName, board := { verbosity := verbosity } }
  match prepare d screen f p with
  | .ok () p => .ok ⟨p, f.frames, f.maxSteps.getD defaultMaxSteps⟩
  | .error e p => .error (e, p.board.log.reverse)

end Machine

end Atari
