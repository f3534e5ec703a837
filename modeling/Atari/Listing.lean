import Atari.InstructionSet
import Atari.Text.Blank

/-!
# Listings

How an instruction is written in a listing: its address, its bytes, its mnemonic and its operand, in
columns.

* `Decoded`: an instruction with the operand that stands behind its opcode;
* `Listing`: the columns of a line;
* `Decoded.text`, `Listing.text`: the line, with and without padding.
-/

namespace Atari

/-- The columns of a line in a listing. -/
structure Listing where
  address : Address
  bytes : List Byte
  mnemonic : String
  operand : String
  deriving DecidableEq, Repr, Inhabited

namespace Listing

/-- Bytes in brackets, such as `(a9 c0)`. -/
def byteText (bytes : List Byte) : String :=
  "(" ++ " ".intercalate (bytes.map Byte.digits) ++ ")"

def columns (l : Listing) : String :=
  l.address.listed ++ ": " ++ padRight 14 (byteText l.bytes) ++ padRight 4 l.mnemonic ++ " "

/-- The line, with the operand in a column of its own. -/
def padded (l : Listing) : String := l.columns ++ padRight 15 l.operand

/-- The line without blanks at its end. -/
def text (l : Listing) : String := trimEnd (l.columns ++ l.operand)

end Listing

/-- An instruction at an address with the operand behind its opcode. -/
structure Decoded where
  address : Address
  instruction : Instruction
  operand : Address
  deriving DecidableEq, Repr, Inhabited

namespace Decoded

/-- How the operand is read. -/
def mode (d : Decoded) : AddressingMode := d.instruction.mode

def bytes (d : Decoded) : List Byte :=
  d.instruction.opcode :: [d.operand.low, d.operand.high].take d.mode.width

/-- The operand in a listing. -/
def operandText (d : Decoded) : String := d.mode.format d.operand d.address

def listing (d : Decoded) : Listing := ⟨d.address, d.bytes, d.instruction.mnemonic, d.operandText⟩

def text (d : Decoded) : String := d.listing.padded

end Decoded

/-- What happened in a step: the instruction and the registers that it left. -/
structure LogLine where
  decoded : Decoded
  registers : Registers
  deriving DecidableEq, Repr, Inhabited

namespace LogLine

def listing (l : LogLine) : Listing := l.decoded.listing

def text (l : LogLine) : String := l.decoded.text ++ "  " ++ l.registers.outcome

end LogLine

end Atari
