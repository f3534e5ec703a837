import Atari.Antic.Basic
import Atari.Memory.Basic
import Atari.Memory.Hooks
import Atari.Registers

/-!
# The board

Everything the processor is wired to: memory, the hooks on its addresses, the displays, and the
records of what happened.

* `Script`: a program that a hook runs on the bus;
* `Hook`: a script, or the request for a scan line;
* `Board`: the state, with its journal and its log.
-/

namespace Atari

/-- How much a log tells. -/
inductive Level
  | warn
  | info
  | debug
  | trace
  deriving DecidableEq, Repr

namespace Level

/-- The name of a level. -/
def name : Level → String
  | warn => "WARN"
  | info => "INFO"
  | debug => "DEBUG"
  | trace => "TRACE"

/-- The levels in the order of detail. -/
def rank : Level → Nat
  | warn => 0
  | info => 1
  | debug => 2
  | trace => 3

end Level

/-- One line of a log. -/
structure LogRecord where
  level : Level
  body : String
  deriving DecidableEq, Repr

def LogRecord.text (r : LogRecord) : String := r.level.name ++ " " ++ r.body

/-- What one operation of a script came to. -/
inductive Outcome
  | done
  | refused (e : MemoryError)
  | byte (v : Byte)
  | count (n : Nat)
  deriving DecidableEq, Repr

/-- What watchers and hooks write into the journal. -/
inductive Event
  /-- A register was written. -/
  | observed (label : String) (value : Byte)
  /-- A breakpoint was hit. -/
  | breakpoint (label : String) (registers : Registers)
  /-- A hook was called. -/
  | hook (label : String) (address : Address) (value : Byte)
  /-- A hook ran one of its operations. -/
  | did (operation : String) (address : Address) (outcome : Outcome)
  deriving DecidableEq, Repr

/-- A program that a hook runs on the bus; each operation hands its result to the rest. -/
inductive Script
  | stop
  | peek (a : Address) (rest : Byte → Script)
  | poke (a : Address) (data : List Byte) (rest : Except MemoryError Unit → Script)
  | count (a : Address) (rest : Nat → Script)
  | clear (a : Address) (rest : Nat → Script)
  /-- Registers another hook. -/
  | attach (a : Address) (hook : Address → Byte → Script) (rest : Script)
  /-- Writes into the journal. -/
  | report (e : Event) (rest : Script)

/-- What is called when a byte is stored at an address. -/
inductive Hook
  /-- Runs a script, which is given the address and the byte. -/
  | script (run : Address → Byte → Script)
  /-- Asks a display for a scan line. -/
  | waitSync (display : Nat)

/-- Everything the processor is wired to. -/
structure Board where
  memory : Memory := .zero
  hooks : Hooks Hook := {}
  /-- The displays; one that is drawing is away. -/
  displays : Array (Option Display) := #[]
  /-- What watchers and hooks wrote, the latest first. -/
  journal : List Event := []
  /-- The log, the latest first. -/
  log : List LogRecord := []
  /-- The most detailed level that the log keeps; without it the log is off. -/
  verbosity : Option Level := none
  /-- The address of the last breakpoint that asks to stop. -/
  stop : Option Address := none
  /-- Whether hooks were nested too deep to be called. -/
  overrun : Bool := false

namespace Board

instance : Inhabited Board := ⟨{}⟩

def peek (b : Board) (a : Address) : Byte := b.memory.peek a

def setByte (b : Board) (a : Address) (v : Byte) : Board := { b with memory := b.memory.set a v }

def record (b : Board) (e : Event) : Board := { b with journal := e :: b.journal }

/-- Writes into the log, if it keeps the level. -/
def note (b : Board) (level : Level) (body : Unit → String) : Board :=
  match b.verbosity with
  | some most => if level.rank ≤ most.rank then { b with log := ⟨level, body ()⟩ :: b.log } else b
  | none => b

/-- The display of a number, unless it is drawing. -/
def display? (b : Board) (i : Nat) : Option Display := (b.displays[i]?).join

def lend (b : Board) (i : Nat) : Board := { b with displays := b.displays.setIfInBounds i none }

/-- The board with a display in its place. -/
def giveBack (b : Board) (i : Nat) (d : Display) : Board :=
  { b with displays := b.displays.setIfInBounds i (some d) }

/-- Adds a display and tells its number. -/
def addDisplay (b : Board) (d : Display) : Nat × Board :=
  (b.displays.size, { b with displays := b.displays.push (some d) })

/-- The text that describes memory and its hooks. -/
def text (b : Board) : String :=
  "Memory " ++ toString Memory.size ++ " bytes, hooks " ++ b.hooks.text

end Board

end Atari
