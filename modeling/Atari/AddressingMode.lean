import Atari.Registers
import Atari.Memory.Basic

/-!
# Addressing modes

How the operand bytes behind an opcode become a value or a location. A mode has no state: the operand
and the machine are given when it is used.

* `AddressingMode.width`: how many operand bytes there are;
* `AddressingMode.evaluate`: what the operand stands for; `value` and `address` ask for one kind;
* `AddressingMode.format`: the operand in a listing.
-/

namespace Atari

/-- A way to read an operand. -/
inductive AddressingMode
  | accumulator
  | absolute
  | absoluteX
  | absoluteY
  | immediate
  | implied
  | indirect
  /-- A pointer in page zero, chosen by `X`. -/
  | indexedIndirect
  /-- A pointer in page zero, to which `Y` is added. -/
  | indirectIndexed
  | relative
  | zeroPage
  | zeroPageX
  | zeroPageY
  deriving DecidableEq, Repr, Inhabited

/-- What an operand stands for. -/
inductive Resolution
  | nothing
  | value (v : Byte)
  | address (a : Address)
  deriving DecidableEq, Repr

/-- Why an operand does not serve an instruction. -/
inductive ResolutionError
  /-- The instruction needs a location. -/
  | notAnAddress (mode : AddressingMode)
  /-- The instruction needs a value. -/
  | noValue (mode : AddressingMode)
  deriving DecidableEq, Repr

namespace AddressingMode

/-- The name of a mode. -/
def name : AddressingMode → String
  | accumulator => "Accumulator"
  | absolute => "Absolute"
  | absoluteX => "AbsoluteXIndexed"
  | absoluteY => "AbsoluteYIndexed"
  | immediate => "Immediate"
  | implied => "Implied"
  | indirect => "Indirect"
  | indexedIndirect => "ZeroPageXIndexedIndirect"
  | indirectIndexed => "ZeroPageIndirectYIndexed"
  | relative => "Relative"
  | zeroPage => "ZeroPage"
  | zeroPageX => "ZeroPageXIndexed"
  | zeroPageY => "ZeroPageYIndexed"

def all : List AddressingMode :=
  [accumulator, absolute, absoluteX, absoluteY, immediate, implied, indirect, indexedIndirect,
    indirectIndexed, relative, zeroPage, zeroPageX, zeroPageY]

/-- The number of operand bytes. -/
def width : AddressingMode → Nat
  | accumulator | implied => 0
  | absolute | absoluteX | absoluteY | indirect => 2
  | immediate | indexedIndirect | indirectIndexed | relative | zeroPage | zeroPageX | zeroPageY => 1

/-- The target of a branch at `a`: the signed offset counts from the instruction behind the branch. -/
def relativeTarget (a : Address) (offset : Byte) : Address :=
  a + 2 + offset.toInt8.toInt16.toUInt16

/-- The location in page zero with the low byte of `n`. -/
def inPageZero (n : Address) : Address := n &&& 0x00FF

/-- What the operand stands for. A relative target counts from the command pointer. -/
def evaluate (mode : AddressingMode) (r : Registers) (m : Memory) (operand : Address) : Resolution :=
  match mode with
  | implied => .nothing
  | accumulator => .value r.a
  | immediate => .value operand.low
  | zeroPage => .address (inPageZero operand)
  | zeroPageX => .address (inPageZero (operand + r.x.toUInt16))
  | zeroPageY => .address (inPageZero (operand + r.y.toUInt16))
  | indexedIndirect => .address (m.pointer (inPageZero (operand + r.x.toUInt16)) true)
  | indirectIndexed => .address (m.pointer (inPageZero operand) true + r.y.toUInt16)
  | absolute => .address operand
  | absoluteX => .address (operand + r.x.toUInt16)
  | absoluteY => .address (operand + r.y.toUInt16)
  | indirect => .address (m.pointer operand false)
  | relative => .address (relativeTarget r.pc operand.low)

/-- The byte that the operand stands for, read from memory when it is a location. -/
def value (mode : AddressingMode) (r : Registers) (m : Memory) (operand : Address) :
    Except ResolutionError Byte :=
  match mode.evaluate r m operand with
  | .value v => .ok v
  | .address a => .ok (m.peek a)
  | .nothing => .error (.noValue mode)

/-- The location that the operand stands for. -/
def address (mode : AddressingMode) (r : Registers) (m : Memory) (operand : Address) :
    Except ResolutionError Address :=
  match mode.evaluate r m operand with
  | .address a => .ok a
  | .value _ | .nothing => .error (.notAnAddress mode)

/-- The operand in a listing, for an instruction at `a`. Locations of two bytes are in upper case. -/
def format (mode : AddressingMode) (operand a : Address) : String :=
  let short := "$" ++ operand.low.digits
  match mode with
  | implied => ""
  | accumulator => "A"
  | immediate => "#" ++ short
  | zeroPage => short
  | absolute => operand.text
  | absoluteX => operand.text ++ ",X"
  | absoluteY => operand.text ++ ",Y"
  | indirect => "(" ++ operand.text ++ ")"
  | zeroPageX => short ++ ",X"
  | zeroPageY => short ++ ",Y"
  | indexedIndirect => "(" ++ short ++ ",X)"
  | indirectIndexed => "(" ++ short ++ "),Y"
  | relative => (relativeTarget a operand.low).text

end AddressingMode

/-- The text that reports the error. -/
def ResolutionError.message : ResolutionError → String
  | notAnAddress mode => unresolved mode "an address"
  | noValue mode => unresolved mode "a value"
where
  unresolved (mode : AddressingMode) (wanted : String) : String :=
    "addressing mode '" ++ mode.name ++ "' does not resolve to " ++ wanted

end Atari
