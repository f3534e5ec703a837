import Atari.Value

/-!
# Hex dumps

Bytes in rows of sixteen: the address of the first, the bytes in hexadecimal, and the bytes as
characters where they can be printed.

* `HexDump.row`: one row;
* `HexDump.lines`: the rows of some bytes; without bytes there is one empty line.
-/

namespace Atari

namespace HexDump

def rowLength : Nat := 16

/-- A byte as a character, or a dot. -/
def printable (v : Byte) : Char := if 0x20 ≤ v ∧ v ≤ 0x7E then Char.ofNat v.toNat else '.'

/-- The bytes in hexadecimal, a blank behind each. -/
def columns (bytes : List Byte) : List Char :=
  bytes.flatMap fun v => hexDigits .upper 2 v.toNat ++ [' ']

/-- The locations that can be written; behind the last one, they start again from zero. -/
def locations : Nat := 0x10000000000000000

/-- The row of some bytes. -/
def row (location : Nat) (bytes : List Byte) : String :=
  hex .upper 4 (location % locations) ++ " : " ++
    padRight (rowLength * 3) (String.ofList (columns bytes)) ++ "| " ++
    String.ofList (bytes.map printable)

/-- The rows of at least one byte. -/
def rows (location : Nat) (bytes : List Byte) : List String :=
  if _h : bytes = [] then []
  else row location (bytes.take rowLength) :: rows (location + rowLength) (bytes.drop rowLength)
termination_by bytes.length
decreasing_by
  have := List.length_pos_iff.2 _h
  simp [rowLength]
  omega

def lines (location : Nat) (bytes : List Byte) : List String :=
  if bytes = [] then [""] else rows location bytes

end HexDump

end Atari
