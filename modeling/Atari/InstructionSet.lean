import Atari.Memory.Cells
import Atari.Operation

/-!
# Instruction sets

A table from opcodes to instructions. An opcode without an entry stands for the invalid instruction,
whose execution always fails.

* `Instruction`: a mnemonic with its mode and its operation;
* `InstructionSet.ofList`: the table of some entries, of which the last one wins;
* `InstructionSet.nmos`: the 151 documented instructions of 56 mnemonics.
-/

namespace Atari

/-- One entry of an instruction table. -/
structure Instruction where
  mnemonic : String
  opcode : Byte
  mode : AddressingMode
  operation : Operation
  deriving DecidableEq, Repr, Inhabited

namespace Instruction

/-- What opcodes without an entry stand for. -/
def invalid : Instruction := ⟨"???", 0, .implied, .undefined⟩

def text (i : Instruction) : String :=
  "Instruction [" ++ i.opcode.text ++ " " ++ i.mnemonic ++ " " ++ i.mode.name ++ "]"

/-- The entries of a mnemonic, one for each mode. -/
def family (mnemonic : String) (operation : Operation) (modes : List (Byte × AddressingMode)) :
    List Instruction :=
  modes.map fun (opcode, mode) => ⟨mnemonic, opcode, mode, operation⟩

/-- The documented instructions. -/
def documented : List Instruction :=
  family "ADC" .add [(0x69, .immediate), (0x65, .zeroPage), (0x75, .zeroPageX),
      (0x6D, .absolute), (0x7D, .absoluteX), (0x79, .absoluteY), (0x61, .indexedIndirect),
      (0x71, .indirectIndexed)] ++
  family "AND" (.logic .and) [(0x29, .immediate), (0x25, .zeroPage), (0x35, .zeroPageX),
      (0x2D, .absolute), (0x3D, .absoluteX), (0x39, .absoluteY), (0x21, .indexedIndirect),
      (0x31, .indirectIndexed)] ++
  family "ASL" (.change .shiftLeft) [(0x0A, .accumulator), (0x06, .zeroPage),
      (0x16, .zeroPageX), (0x0E, .absolute), (0x1E, .absoluteX)] ++
  family "BCC" (.branch .carry false) [(0x90, .relative)] ++
  family "BCS" (.branch .carry true) [(0xB0, .relative)] ++
  family "BEQ" (.branch .zero true) [(0xF0, .relative)] ++
  family "BIT" .bitTest [(0x24, .zeroPage), (0x2C, .absolute)] ++
  family "BMI" (.branch .negative true) [(0x30, .relative)] ++
  family "BNE" (.branch .zero false) [(0xD0, .relative)] ++
  family "BPL" (.branch .negative false) [(0x10, .relative)] ++
  family "BRK" .softwareInterrupt [(0x00, .implied)] ++
  family "BVC" (.branch .overflow false) [(0x50, .relative)] ++
  family "BVS" (.branch .overflow true) [(0x70, .relative)] ++
  family "CLC" (.setFlag .carry false) [(0x18, .implied)] ++
  family "CLD" (.setFlag .decimal false) [(0xD8, .implied)] ++
  family "CLI" (.setFlag .interrupt false) [(0x58, .implied)] ++
  family "CLV" (.setFlag .overflow false) [(0xB8, .implied)] ++
  family "CMP" (.compare .a) [(0xC9, .immediate), (0xC5, .zeroPage), (0xD5, .zeroPageX),
      (0xCD, .absolute), (0xDD, .absoluteX), (0xD9, .absoluteY), (0xC1, .indexedIndirect),
      (0xD1, .indirectIndexed)] ++
  family "CPX" (.compare .x) [(0xE0, .immediate), (0xE4, .zeroPage), (0xEC, .absolute)] ++
  family "CPY" (.compare .y) [(0xC0, .immediate), (0xC4, .zeroPage), (0xCC, .absolute)] ++
  family "DEC" (.change .decrement) [(0xC6, .zeroPage), (0xD6, .zeroPageX), (0xCE, .absolute),
      (0xDE, .absoluteX)] ++
  family "DEX" (.decrement .x) [(0xCA, .implied)] ++
  family "DEY" (.decrement .y) [(0x88, .implied)] ++
  family "EOR" (.logic .xor) [(0x49, .immediate), (0x45, .zeroPage), (0x55, .zeroPageX),
      (0x4D, .absolute), (0x5D, .absoluteX), (0x59, .absoluteY), (0x41, .indexedIndirect),
      (0x51, .indirectIndexed)] ++
  family "INC" (.change .increment) [(0xE6, .zeroPage), (0xF6, .zeroPageX), (0xEE, .absolute),
      (0xFE, .absoluteX)] ++
  family "INX" (.increment .x) [(0xE8, .implied)] ++
  family "INY" (.increment .y) [(0xC8, .implied)] ++
  family "JMP" .jump [(0x4C, .absolute), (0x6C, .indirect)] ++
  family "JSR" .call [(0x20, .absolute)] ++
  family "LDA" (.load .a) [(0xA9, .immediate), (0xA5, .zeroPage), (0xB5, .zeroPageX),
      (0xAD, .absolute), (0xBD, .absoluteX), (0xB9, .absoluteY), (0xA1, .indexedIndirect),
      (0xB1, .indirectIndexed)] ++
  family "LDX" (.load .x) [(0xA2, .immediate), (0xA6, .zeroPage), (0xB6, .zeroPageY),
      (0xAE, .absolute), (0xBE, .absoluteY)] ++
  family "LDY" (.load .y) [(0xA0, .immediate), (0xA4, .zeroPage), (0xB4, .zeroPageX),
      (0xAC, .absolute), (0xBC, .absoluteX)] ++
  family "LSR" (.change .shiftRight) [(0x4A, .accumulator), (0x46, .zeroPage),
      (0x56, .zeroPageX), (0x4E, .absolute), (0x5E, .absoluteX)] ++
  family "NOP" .nothing [(0xEA, .implied)] ++
  family "ORA" (.logic .or) [(0x09, .immediate), (0x05, .zeroPage), (0x15, .zeroPageX),
      (0x0D, .absolute), (0x1D, .absoluteX), (0x19, .absoluteY), (0x01, .indexedIndirect),
      (0x11, .indirectIndexed)] ++
  family "PHA" .pushAccumulator [(0x48, .implied)] ++
  family "PHP" .pushStatus [(0x08, .implied)] ++
  family "PLA" .pullAccumulator [(0x68, .implied)] ++
  family "PLP" .pullStatus [(0x28, .implied)] ++
  family "ROL" (.change .rotateLeft) [(0x2A, .accumulator), (0x26, .zeroPage),
      (0x36, .zeroPageX), (0x2E, .absolute), (0x3E, .absoluteX)] ++
  family "ROR" (.change .rotateRight) [(0x6A, .accumulator), (0x66, .zeroPage),
      (0x76, .zeroPageX), (0x6E, .absolute), (0x7E, .absoluteX)] ++
  family "RTI" .returnFromInterrupt [(0x40, .implied)] ++
  family "RTS" .returnFromCall [(0x60, .implied)] ++
  family "SBC" .subtract [(0xE9, .immediate), (0xE5, .zeroPage), (0xF5, .zeroPageX),
      (0xED, .absolute), (0xFD, .absoluteX), (0xF9, .absoluteY), (0xE1, .indexedIndirect),
      (0xF1, .indirectIndexed)] ++
  family "SEC" (.setFlag .carry true) [(0x38, .implied)] ++
  family "SED" (.setFlag .decimal true) [(0xF8, .implied)] ++
  family "SEI" (.setFlag .interrupt true) [(0x78, .implied)] ++
  family "STA" (.store .a) [(0x85, .zeroPage), (0x95, .zeroPageX), (0x8D, .absolute),
      (0x9D, .absoluteX), (0x99, .absoluteY), (0x81, .indexedIndirect),
      (0x91, .indirectIndexed)] ++
  family "STX" (.store .x) [(0x86, .zeroPage), (0x96, .zeroPageY), (0x8E, .absolute)] ++
  family "STY" (.store .y) [(0x84, .zeroPage), (0x94, .zeroPageX), (0x8C, .absolute)] ++
  family "TAX" (.transfer .a .x) [(0xAA, .implied)] ++
  family "TAY" (.transfer .a .y) [(0xA8, .implied)] ++
  family "TSX" .loadStackPointer [(0xBA, .implied)] ++
  family "TXA" (.transfer .x .a) [(0x8A, .implied)] ++
  family "TXS" .setStackPointer [(0x9A, .implied)] ++
  family "TYA" (.transfer .y .a) [(0x98, .implied)]

end Instruction

/-- A table with a slot for each opcode. -/
structure InstructionSet where
  slots : Cells (Option Instruction) 8

namespace InstructionSet

def empty : InstructionSet := ⟨Cells.fill none 8⟩

/-- The table with one more entry, which replaces an entry of the same opcode. -/
def insert (s : InstructionSet) (i : Instruction) : InstructionSet :=
  ⟨s.slots.set i.opcode.toNat (some i)⟩

/-- The table of some entries; the last one wins when several share an opcode. -/
def ofList (entries : List Instruction) : InstructionSet := entries.foldl insert empty

def nmos : InstructionSet := ofList Instruction.documented

/-- The entry of an opcode, if it has one. -/
def get? (s : InstructionSet) (opcode : Byte) : Option Instruction := s.slots.get opcode.toNat

def get (s : InstructionSet) (opcode : Byte) : Instruction := (s.get? opcode).getD .invalid

def contains (s : InstructionSet) (opcode : Byte) : Bool := (s.get? opcode).isSome

def size (s : InstructionSet) : Nat :=
  ((List.range 256).filter fun n => s.contains (UInt8.ofNat n)).length

def text (s : InstructionSet) : String :=
  "InstructionSet [" ++ toString s.size ++ " instructions]"

end InstructionSet

end Atari
