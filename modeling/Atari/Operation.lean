import Atari.AddressingMode

/-!
# Operations

What an instruction does, apart from how its operand is found. Mnemonics that differ in a register or
a flag alone share an operation.

* `Register`: a register that can be loaded, stored and observed;
* `Operation`: what is done;
* `Logic`, `Change`: the operations on bits.
-/

namespace Atari

/-- A register that can be loaded, stored and observed. -/
inductive Register
  | a
  | x
  | y
  deriving DecidableEq, Repr

/-- An operation on the bits of two bytes. -/
inductive Logic
  | and
  | or
  | xor
  deriving DecidableEq, Repr

/-- A change of one byte in its place. -/
inductive Change
  | shiftLeft
  | shiftRight
  | rotateLeft
  | rotateRight
  | increment
  | decrement
  deriving DecidableEq, Repr

/-- What an instruction does. -/
inductive Operation
  | load (r : Register)
  | store (r : Register)
  | transfer (source target : Register)
  /-- Copies the stack pointer to `X`. -/
  | loadStackPointer
  /-- Copies `X` to the stack pointer. -/
  | setStackPointer
  | logic (f : Logic)
  | add
  | subtract
  | compare (r : Register)
  | bitTest
  | change (c : Change)
  | increment (r : Register)
  | decrement (r : Register)
  /-- Jumps when the flag has the value. -/
  | branch (f : Flag) (v : Bool)
  | jump
  | call
  | returnFromCall
  | softwareInterrupt
  | returnFromInterrupt
  | setFlag (f : Flag) (v : Bool)
  | pushAccumulator
  | pullAccumulator
  | pushStatus
  | pullStatus
  | nothing
  /-- Always fails. -/
  | undefined
  deriving DecidableEq, Repr, Inhabited

/-- The value of an operation on bits. -/
def Logic.apply : Logic → Byte → Byte → Byte
  | and, a, v => a &&& v
  | or, a, v => a ||| v
  | xor, a, v => a ^^^ v

namespace Change

/-- The changed byte; rotations move the carry in. -/
def apply (c : Change) (carry : Bool) (v : Byte) : Byte :=
  match c with
  | shiftLeft => v <<< 1
  | shiftRight => v >>> 1
  | rotateLeft => (v <<< 1) ||| (if carry then 0x01 else 0)
  | rotateRight => (v >>> 1) ||| (if carry then 0x80 else 0)
  | increment => v + 1
  | decrement => v - 1

/-- The bit that is moved out into the carry, if the change moves one out. -/
def carryOut? (c : Change) (v : Byte) : Option Bool :=
  match c with
  | shiftLeft | rotateLeft => some (v &&& 0x80 != 0)
  | shiftRight | rotateRight => some (v &&& 0x01 != 0)
  | increment | decrement => none

end Change

end Atari
