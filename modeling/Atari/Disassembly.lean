import Atari.Listing

/-!
# Disassembly

Memory read as instructions, one after the other, without a processor. A byte that is no opcode takes
a line of its own. The walk ends where memory ends, or where an operand would not fit.

* `Disassembly.line?`: the line at an address, with the address of the next one;
* `Disassembly.lines`: the first lines from an address on;
* `Disassembly.range`: the lines of the instructions that start in a range.
-/

namespace Atari

namespace Listing

/-- The line of a byte that is no opcode. -/
def unknown (a : Address) (opcode : Byte) : Listing :=
  ⟨a, [opcode], Instruction.invalid.mnemonic, "; unknown opcode " ++ opcode.text⟩

def isValid (l : Listing) : Bool := l.mnemonic != Instruction.invalid.mnemonic

def width (l : Listing) : Nat := l.bytes.length

end Listing

namespace Disassembly

variable (s : InstructionSet) (m : Memory)

/-- The address `n` bytes further, if it exists. -/
def after? (a : Address) (n : Nat) : Option Address :=
  if a.toNat + n < Memory.size then some (UInt16.ofNat (a.toNat + n)) else none

/-- The operand in the bytes of an instruction. -/
def operand : List Byte → Address
  | [_, low] => low.toUInt16
  | _ :: low :: high :: _ => .ofBytes low high
  | _ => 0

/-- The line at an address, with the address behind it; none if the operand would not fit. -/
def line? (a : Address) : Option (Listing × Option Address) :=
  let opcode := m.peek a
  match s.get? opcode with
  | none => some (.unknown a opcode, after? a 1)
  | some i =>
    let width := i.mode.width
    if (after? a width).isSome then
      let bytes := m.bytesFrom a (width + 1)
      some (⟨a, bytes, i.mnemonic, i.mode.format (operand bytes) a⟩, after? a (width + 1))
    else none

/-- At most `n` lines from an address on. -/
def lines : (n : Nat) → Option Address → List Listing
  | 0, _ | _, none => []
  | n + 1, some a => match line? s m a with
    | none => []
    | some (l, next) => l :: lines n next

/-- The lines of the instructions that start at `first` or behind it, and before `last`. -/
def range (first last : Address) : List Listing :=
  (lines s m (last.toNat - first.toNat) (some first)).takeWhile (·.address < last)

end Disassembly

end Atari
