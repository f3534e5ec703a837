import Atari.Listing
import Atari.Processor.Basic

/-!
# Execution

What each operation does to the processor. An operand is resolved before anything is changed, and an
operation tells whether it wrote the command pointer itself.

* `Fault`: why an instruction fails; `Execution`: a computation on the processor that may fail;
* `Processor.enterInterrupt`: the common part of all interrupts;
* `Processor.add`, `Processor.subtract`: arithmetic, binary and decimal;
* `Decoded.execute`: one instruction.
-/

namespace Atari

/-- Why an instruction fails. -/
inductive Fault
  | resolution (e : ResolutionError)
  | invalidInstruction (opcode : Byte) (address : Address) (processor : String)
  deriving DecidableEq, Repr

namespace Fault

/-- The text that reports the fault. -/
def message : Fault → String
  | resolution e => "resolution error caught in microcode operation: " ++ e.message
  | invalidInstruction opcode address processor =>
    "invalid opcode " ++ opcode.text ++ " at address " ++ address.text ++ " on processor '" ++
      processor ++ "'"

def cause : Fault → Option ResolutionError
  | resolution e => some e
  | invalidInstruction _ _ _ => none

end Fault

/-- A computation on the processor that may fail; the state is kept when it does. -/
abbrev Execution := EStateM Fault Processor

/-- Whether an operation wrote the command pointer. -/
inductive Flow
  | next
  | jumped
  deriving DecidableEq, Repr, Inhabited

namespace Processor

/-! ## Interrupts -/

/-- Where the address of the routine for non maskable interrupts is stored. -/
def nmiVector : Address := 0xFFFA

/-- Where the address of the first instruction is stored. -/
def resetVector : Address := 0xFFFC

/-- Where the address of the routine for software interrupts is stored. -/
def interruptVector : Address := 0xFFFE

/-- Pushes the return address and the status, with `B` telling the kind of interrupt, disables
interrupts and goes on at the address stored at the vector. -/
def enterInterrupt (p : Processor) (returnAddress : Address) (brk : Bool) (vector : Address) :
    Processor :=
  let p := (p.pushAddress returnAddress).setFlag .brk brk
  let p := (p.push p.registers.status.toByte).setFlag .interrupt true
  let target := p.memory.pointer vector false
  let name := p.name
  let p := p.onBoard (·.note .debug fun _ => name ++ ": interrupt from " ++ returnAddress.text ++
    " to " ++ target.text ++ " (vector " ++ vector.listed ++ ")")
  p.setPc target

/-- A software interrupt. The command pointer stands behind the opcode, on a byte that is skipped. -/
def interrupt (p : Processor) : Processor := p.enterInterrupt (p.pc + 1) true interruptVector

/-- A non maskable interrupt, which returns to the command pointer. -/
def nonMaskableInterrupt (p : Processor) : Processor := p.enterInterrupt p.pc false nmiVector

/-- The registers after power up, and the command pointer from its vector. -/
def reset (p : Processor) : Processor :=
  let start := p.memory.pointer resetVector false
  let p := { p with registers := .initial start }
  (((p.setRegister .a 0).setRegister .x 0).setRegister .y 0).setPc start

/-! ## Arithmetic -/

/-- Adds a byte and the carry to the accumulator. -/
def addBinary (p : Processor) (v : Byte) : Processor :=
  let a := p.registers.a
  let sum := a.toNat + v.toNat + (p.flag .carry).toNat
  let result := UInt8.ofNat sum
  let p := (p.setRegister .a result).setFlag .carry (0xFF < sum)
  (p.setFlag .overflow ((a ^^^ result) &&& (v ^^^ result) &&& 0x80 != 0)).setNZ result

/-- Ends a decimal operation: negative and overflow are clear. -/
def setDecimal (p : Processor) (result : Byte) (carry : Bool) : Processor :=
  let p := (p.setRegister .a result).setFlag .carry carry
  ((p.setFlag .zero (result == 0)).setFlag .negative false).setFlag .overflow false

/-- Adds two decimal digits and the carry to the accumulator. The low digit is corrected when it
passes nine, the whole when it then passes ninety-nine. -/
def addDecimal (p : Processor) (v : Byte) : Processor :=
  let a := p.registers.a
  let carry := (p.flag .carry).toNat
  let sum := a.toNat + v.toNat + carry
  let sum := if 0x09 < a.toNat % 16 + v.toNat % 16 + carry then sum + 0x06 else sum
  let sum := if 0x99 < sum then sum + 0x60 else sum
  p.setDecimal (UInt8.ofNat sum) (0x99 < sum)

/-- Subtracts two decimal digits from the accumulator, and one more without carry. The low digit is
corrected when it borrows, the whole when it is then below zero. -/
def subtractDecimal (p : Processor) (v : Byte) : Processor :=
  let a := p.registers.a
  let borrow : Int := (!p.flag .carry).toNat
  let difference : Int := a.toNat - v.toNat - borrow
  let low : Int := (a.toNat % 16 : Nat) - (v.toNat % 16 : Nat) - borrow
  let difference := if low < 0 then difference - 0x06 else difference
  let difference := if difference < 0 then difference - 0x60 else difference
  p.setDecimal (UInt8.ofNat (difference % 256).toNat) (0 ≤ difference)

/-- Adds a byte and the carry to the accumulator, in the number system of the decimal flag. -/
def add (p : Processor) (v : Byte) : Processor :=
  if p.flag .decimal then p.addDecimal v else p.addBinary v

/-- Subtracts a byte from the accumulator, and one more without carry. In binary this adds the
complement. -/
def subtract (p : Processor) (v : Byte) : Processor :=
  if p.flag .decimal then p.subtractDecimal v else p.addBinary (~~~v)

/-- Compares a register with a byte: the carry tells that it is not below. -/
def compare (p : Processor) (r v : Byte) : Processor :=
  (p.setFlag .carry (v ≤ r)).setNZ (r - v)

/-- Loads a register and sets the flags for it. -/
def load (p : Processor) (r : Register) (v : Byte) : Processor := (p.setRegister r v).setNZ v

/-- The flags that a change of a byte leaves before the byte is written. -/
def shiftOut (p : Processor) (c : Change) (v : Byte) : Processor :=
  match c.carryOut? v with
  | some carry => p.setFlag .carry carry
  | none => p

/-- The zero flag for the bits that the accumulator shares with a byte, and the two highest bits of
the byte. -/
def testBits (p : Processor) (v : Byte) : Processor :=
  let p := (p.setFlag .zero (p.registers.a &&& v == 0)).setFlag .negative v.isNegative
  p.setFlag .overflow (v &&& 0x40 != 0)

end Processor

namespace Decoded

open Processor

/-! ## Instructions -/

/-- The value of the operand. -/
def value (d : Decoded) : Execution Byte := fun p =>
  match d.mode.value p.registers p.memory d.operand with
  | .ok v => .ok v p
  | .error e => .error (.resolution e) p

/-- The location of the operand. -/
def target (d : Decoded) : Execution Address := fun p =>
  match d.mode.address p.registers p.memory d.operand with
  | .ok a => .ok a p
  | .error e => .error (.resolution e) p

/-- Changes the processor and goes on with the next instruction. -/
def proceed (change : Processor → Processor) : Execution Flow := fun p => .ok .next (change p)

def goTo (a : Address) : Execution Flow := fun p => .ok .jumped (p.setPc a)

/-- Changes a byte where it is: in the accumulator or in memory. -/
def changeInPlace (d : Decoded) (c : Change) : Execution Flow :=
  if d.mode = .accumulator then
    proceed fun p =>
      let v := p.registers.a
      let result := c.apply (p.flag .carry) v
      (p.shiftOut c v).load .a result
  else do
    let a ← d.target
    proceed fun p =>
      let v := p.memory.peek a
      let result := c.apply (p.flag .carry) v
      ((p.shiftOut c v).store a result).setNZ result

/-- Executes an instruction. -/
def execute (d : Decoded) : Execution Flow :=
  match d.instruction.operation with
  | .load r => do
    let v ← d.value
    proceed (·.load r v)
  | .store r => do
    let a ← d.target
    proceed fun p => p.store a (p.register r)
  | .transfer source target => proceed fun p => p.load target (p.register source)
  | .loadStackPointer => proceed fun p => p.load .x p.registers.sp
  | .setStackPointer => proceed fun p => p.setSp p.registers.x
  | .logic f => do
    let v ← d.value
    proceed fun p => p.load .a (f.apply p.registers.a v)
  | .add => do
    let v ← d.value
    proceed (·.add v)
  | .subtract => do
    let v ← d.value
    proceed (·.subtract v)
  | .compare r => do
    let v ← d.value
    proceed fun p => p.compare (p.register r) v
  | .bitTest => do
    let v ← d.value
    proceed (·.testBits v)
  | .change c => d.changeInPlace c
  | .increment r => proceed fun p => p.load r (p.register r + 1)
  | .decrement r => proceed fun p => p.load r (p.register r - 1)
  | .branch f v => do
    if (← get).flag f = v then
      goTo (← d.target)
    else
      proceed id
  | .jump => do
    goTo (← d.target)
  | .call => do
    let a ← d.target
    fun p => goTo a (p.pushAddress (d.address + 2))
  | .returnFromCall => fun p =>
    let (a, p) := p.pullAddress
    goTo (a + 1) p
  | .softwareInterrupt => fun p =>
    .ok .jumped (p.enterInterrupt (d.address + 2) true interruptVector)
  | .returnFromInterrupt => fun p =>
    let (status, p) := p.pull
    let (a, p) := (p.setStatus status).pullAddress
    goTo a p
  | .setFlag f v => proceed (·.setFlag f v)
  | .pushAccumulator => proceed fun p => p.push p.registers.a
  | .pullAccumulator => proceed fun p =>
    let (v, p) := p.pull
    p.load .a v
  | .pushStatus => proceed fun p => p.push { p.registers.status with brk := true }.toByte
  | .pullStatus => proceed fun p =>
    let (v, p) := p.pull
    p.setStatus v
  | .nothing => proceed id
  | .undefined => fun p =>
    .error (.invalidInstruction d.instruction.opcode d.address p.name) p

end Decoded

end Atari
