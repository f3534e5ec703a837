import Atari.Board.Store
import Atari.Delegate
import Atari.InstructionSet

/-!
# The processor

Registers, the board they are wired to, and those who watch. Every write of `A`, `X` and `Y` is told
to the observers of the register, and every write of the command pointer is checked against the
breakpoints. Watchers see the state and cannot change it.

* `Breakpoint`: when a breakpoint is hit; `Reaction`: what follows;
* `Processor`: the state;
* `Processor.setRegister`, `Processor.setPc`: writes that are watched;
* `Processor.push`, `Processor.pull`: the stack in page one.
-/

namespace Atari

/-- A condition on the state of the processor. -/
abbrev Condition := Registers → Memory → Bool

/-- When a breakpoint is hit. -/
structure Breakpoint where
  /-- The command pointer it waits for; any, if there is none. -/
  address : Option Address := none
  /-- What must hold besides. -/
  condition : Option Condition := none

def Breakpoint.hit (k : Breakpoint) (r : Registers) (m : Memory) : Bool :=
  k.address.all (· = r.pc) && k.condition.all (· r m)

/-- What follows when a breakpoint is hit. -/
inductive Reaction
  /-- A line in the journal. -/
  | record (label : String)
  /-- A request to stop, which is told to the log. -/
  | stop
  deriving DecidableEq, Repr

/-- What follows when a breakpoint of the processor `name` is hit with the given registers. -/
def Reaction.run (reaction : Reaction) (name : String) (r : Registers) (b : Board) : Board :=
  match reaction with
  | .record label => b.record (.breakpoint label r)
  | .stop =>
    { b.note .info fun _ => name ++ ": breakpoint at " ++ r.pc.text with stop := some r.pc }

/-- The processor and all it is wired to. -/
structure Processor where
  name : String := "cpu"
  table : InstructionSet := .nmos
  registers : Registers := .initial 0
  board : Board := {}
  /-- The labels of those who watch a register. -/
  onA : Delegate Unit String := {}
  onX : Delegate Unit String := {}
  onY : Delegate Unit String := {}
  breakpoints : Delegate Breakpoint Reaction := {}

namespace Processor

instance : Inhabited Processor := ⟨{}⟩

/-! ## Registers -/

def pc (p : Processor) : Address := p.registers.pc

def memory (p : Processor) : Memory := p.board.memory

/-- The value of a register. -/
def register (p : Processor) : Register → Byte
  | .a => p.registers.a
  | .x => p.registers.x
  | .y => p.registers.y

/-- The observers of a register. -/
def observers (p : Processor) : Register → Delegate Unit String
  | .a => p.onA
  | .x => p.onX
  | .y => p.onY

/-- The processor with other observers of a register. -/
def withObservers (p : Processor) (r : Register) (d : Delegate Unit String) : Processor :=
  match r with
  | .a => { p with onA := d }
  | .x => { p with onX := d }
  | .y => { p with onY := d }

/-- Writes a register without telling anybody. -/
def putRegister (p : Processor) (r : Register) (v : Byte) : Processor :=
  match r with
  | .a => { p with registers := { p.registers with a := v } }
  | .x => { p with registers := { p.registers with x := v } }
  | .y => { p with registers := { p.registers with y := v } }

def onBoard (p : Processor) (change : Board → Board) : Processor :=
  { p with board := change p.board }

/-- Writes a register and tells its observers. -/
def setRegister (p : Processor) (r : Register) (v : Byte) : Processor :=
  let labels := (p.observers r).called fun _ => true
  (p.putRegister r v).onBoard fun b => labels.foldl (fun b l => b.record (.observed l v)) b

def setSp (p : Processor) (v : Byte) : Processor :=
  { p with registers := { p.registers with sp := v } }

def withStatus (p : Processor) (change : Status → Status) : Processor :=
  { p with registers := { p.registers with status := change p.registers.status } }

/-- Writes the whole status; bit five stays set. -/
def setStatus (p : Processor) (v : Byte) : Processor := p.withStatus fun _ => .written v

def setFlag (p : Processor) (f : Flag) (v : Bool) : Processor := p.withStatus (·.set f v)

def flag (p : Processor) (f : Flag) : Bool := p.registers.status.get f

/-- Sets the negative and the zero flag for a byte. -/
def setNZ (p : Processor) (v : Byte) : Processor :=
  (p.setFlag .negative v.isNegative).setFlag .zero (v == 0)

/-- Writes the command pointer and checks the breakpoints. -/
def setPc (p : Processor) (a : Address) : Processor :=
  let p := { p with registers := { p.registers with pc := a } }
  match p.breakpoints.called fun k => k.hit p.registers p.memory with
  | [] => p
  | reactions =>
    let r := p.registers
    let name := p.name
    p.onBoard fun b =>
      (reactions.foldl (fun b reaction => reaction.run name r b) b).note .debug fun _ =>
        name ++ ": " ++ toString reactions.length ++ " breakpoint(s) hit at " ++ a.text

/-! ## Memory -/

def store (p : Processor) (a : Address) (v : Byte) : Processor := p.onBoard (·.store a v)

def stackSlot (sp : Byte) : Address := 0x0100 ||| sp.toUInt16

/-- Stores a byte in the free slot of the stack and moves the stack pointer down, which wraps. -/
def push (p : Processor) (v : Byte) : Processor :=
  let p := p.store (stackSlot p.registers.sp) v
  p.setSp (p.registers.sp - 1)

/-- The byte that was pushed last. -/
def top (p : Processor) : Byte := p.memory.peek (stackSlot (p.registers.sp + 1))

/-- Moves the stack pointer up. -/
def drop (p : Processor) : Processor := p.setSp (p.registers.sp + 1)

/-- Takes the byte that was pushed last from the stack. -/
def pull (p : Processor) : Byte × Processor := (p.top, p.drop)

/-- Pushes both bytes of an address, the high one first. -/
def pushAddress (p : Processor) (a : Address) : Processor := (p.push a.high).push a.low

/-- Takes an address from the stack. -/
def pullAddress (p : Processor) : Address × Processor :=
  let (low, p) := p.pull
  let (high, p) := p.pull
  (.ofBytes low high, p)

/-! ## Watching -/

/-- Registers an observer of a register. -/
def observe (p : Processor) (r : Register) (label : String) : Handle × Processor :=
  let (h, d) := (p.observers r).add () label
  (h, p.withObservers r d)

/-- Takes an observer of a register back. -/
def unobserve (p : Processor) (r : Register) (h : Handle) : Bool × Processor :=
  let (found, d) := (p.observers r).remove h
  (found, p.withObservers r d)

def addBreakpoint (p : Processor) (k : Breakpoint) (reaction : Reaction) : Handle × Processor :=
  let (h, d) := p.breakpoints.add k reaction
  (h, { p with breakpoints := d })

def removeBreakpoint (p : Processor) (h : Handle) : Bool × Processor :=
  let (found, d) := p.breakpoints.remove h
  (found, { p with breakpoints := d })

def text (p : Processor) : String := "Processor '" ++ p.name ++ "' " ++ p.registers.text

end Processor

end Atari
