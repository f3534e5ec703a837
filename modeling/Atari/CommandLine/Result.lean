import Atari.CommandLine.Arguments
import Atari.Machine.Load
import Atari.Machine.Printed
import Atari.MachineFile.Load

/-!
# Commands

What a command prints, and the error that it ends with.

* `Command.result`: the outcome of a command;
* `CommandError`: why it fails; `CommandResult`: what comes of it.
-/

namespace Atari

/-- Why a command fails. -/
inductive CommandError
  | machineFile (e : MachineFileError)
  | load (e : LoadError)
  | fault (e : Fault)
  deriving DecidableEq, Repr

def Fault.failure (e : Fault) : Failure := ⟨e.message, e.cause.toList.map (.words ·.message)⟩

namespace CommandError

/-- How the error is told. -/
def failure : CommandError → Failure
  | machineFile e => e.failure
  | load e => e.failure
  | fault e => e.failure

/-- The error of the disk behind the error. -/
def fileError? : CommandError → Option FileError
  | machineFile e => e.fileError?
  | load e => e.fileError?
  | fault _ => none

end CommandError

/-- What a command printed, the error it ended with, and its log. -/
structure CommandResult where
  printed : List String := []
  error : Option CommandError := none
  log : List LogRecord := []
  deriving DecidableEq, Repr

def programName : String := "soft800_tester"

def programVersion : String := "0.1.0"

/-- Why there is no screen when a window is asked for. -/
def noWindow : String := programName ++ " is built without the `window` feature"

/-- The dumps that a machine file asks for, up to the first one whose address is no address. -/
def printedDumps (m : Memory) : List DumpRequest → List String × Option CommandError
  | [] => ([], none)
  | r :: rs => match Address.parse r.address with
    | .error e => ([], some (.load (.address e)))
    | .ok a =>
      let (lines, error) := printedDumps m rs
      (m.printedDump a r.length ++ lines, error)

/-- Runs the machine of a machine file. -/
def MachineFile.execute (d : Disk) (verbosity : Option Level) (steps : Option Nat)
    (trace window : Bool) (f : MachineFile) : CommandResult :=
  let screen := if window then .error noWindow else .ok (.frameBuffer FrameBuffer.standard)
  match Machine.ofFile d screen verbosity f with
  | .error (e, log) => { error := some (.load e), log := log }
  | .ok machine =>
    let (result, machine) := { machine with maxSteps := steps.getD machine.maxSteps }.run trace
    let p := machine.processor
    let log := p.board.log.reverse
    match result with
    | .error e => { error := some (.fault e), log := log }
    | .ok report =>
      let (dumps, error) := printedDumps p.memory (f.dumps.getD [])
      let name := f.name.getD Machine.defaultName
      { printed := report.printed trace name ++ p.printedRegisters :: dumps, error := error, log := log }

/-- Lists the instructions of a file that is stored at an address. -/
def disassembleFile (d : Disk) (file address : String) (start : Option String) (count : Nat) :
    Except LoadError (List String) := do
  let a ← (Address.parse address).mapError .address
  let first ← match start with
    | some text => (Address.parse text).mapError .address
    | none => pure a
  let data ← (d.read file).mapError (.unreadable file)
  let b ← ((default : Board).poke a data).mapError (.unloadable file a)
  return Disassembly.printed .nmos b.memory first (a.toNat + data.length) count

/-- Does what a command asks for. -/
def Command.result (d : Disk) (e : Environment) (verbosity : Option Level) : Command → CommandResult
  | .run machine steps trace window => match MachineFile.load d e machine with
    | .error e => { error := some (.machineFile e) }
    | .ok f => f.execute d verbosity steps trace window
  | .disassemble file address start count => match disassembleFile d file address start count with
    | .error e => { error := some (.load e) }
    | .ok lines => { printed := lines }
  | .version => { printed := [programName ++ " " ++ programVersion] }

end Atari
