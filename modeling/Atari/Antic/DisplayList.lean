import Atari.Memory.Basic

/-!
# Display lists

The program of the video coprocessor: instructions of one byte, some followed by an address. The low
four bits tell the kind, the high four are options or a count.

* `Mode`: how a mode line turns screen memory into pixels, with the table `Mode.table`;
* `DisplayInstruction`: blank lines, jumps and mode lines;
* `DisplayInstruction.decode`: the instruction at an address; `length`: the bytes it takes.
-/

namespace Atari

/-- How bytes of screen memory become pixels. -/
inductive ModeKind
  /-- Characters with one bit for each pixel. -/
  | hiResText
  /-- Characters with two bits for each pixel. -/
  | multiColorText
  /-- Characters of 64 glyphs, whose two highest bits select the color. -/
  | wideText
  /-- A picture of one bit for each pixel. -/
  | map1
  /-- A picture of two bits for each pixel. -/
  | map2
  /-- A picture of one bit for each of the smallest pixels. -/
  | hiResMap
  deriving DecidableEq, Repr

namespace ModeKind

/-- The name of a kind. -/
def name : ModeKind → String
  | hiResText => "HiResText"
  | multiColorText => "MultiColorText"
  | wideText => "WideText"
  | map1 => "Map1"
  | map2 => "Map2"
  | hiResMap => "HiResMap"

/-- Whether screen memory holds characters. -/
def isText : ModeKind → Bool
  | hiResText | multiColorText | wideText => true
  | map1 | map2 | hiResMap => false

end ModeKind

/-- A kind of mode line. -/
structure Mode where
  code : Nat
  /-- The scan lines of a mode line. -/
  height : Nat
  /-- The bytes of screen memory of a line on a normal playfield. -/
  bytes : Nat
  kind : ModeKind
  deriving DecidableEq, Repr

namespace Mode

/-- The mode of forty characters in eight rows. -/
def text40 : Mode := ⟨2, 8, 40, .hiResText⟩

/-- All modes. -/
def table : List Mode :=
  [text40, ⟨3, 10, 40, .hiResText⟩, ⟨4, 8, 40, .multiColorText⟩, ⟨5, 16, 40, .multiColorText⟩,
    ⟨6, 8, 20, .wideText⟩, ⟨7, 16, 20, .wideText⟩, ⟨8, 8, 10, .map2⟩, ⟨9, 4, 10, .map1⟩,
    ⟨10, 4, 20, .map2⟩, ⟨11, 2, 20, .map1⟩, ⟨12, 1, 20, .map1⟩, ⟨13, 2, 40, .map2⟩,
    ⟨14, 1, 40, .map2⟩, ⟨15, 1, 40, .hiResMap⟩]

def ofCode? (code : Nat) : Option Mode := table.find? (·.code = code)

/-- The smallest pixels that a byte of screen memory covers; a normal playfield has 320 of them. -/
def pixelsPerByte (mode : Mode) : Nat := 320 / mode.bytes

end Mode

/-- One instruction of a display list. -/
inductive DisplayInstruction
  | blank (lines : Nat) (interrupt : Bool)
  /-- A jump, which may end the frame. -/
  | jump (target : Address) (verticalBlank interrupt : Bool)
  /-- A mode line, which may say where screen memory goes on. -/
  | modeLine (mode : Mode) (memoryScan : Option Address)
      (verticalScroll horizontalScroll interrupt : Bool)
  deriving DecidableEq, Repr

namespace DisplayInstruction

/-- The instruction at an address. -/
def decode (m : Memory) (a : Address) : DisplayInstruction :=
  let opcode := m.peek a
  let interrupt := opcode &&& 0x80 != 0
  let operand := m.pointer (a + 1) false
  match (opcode &&& 0x0F).toNat with
  | 0 => blank ((opcode >>> 4).toNat + 1) interrupt
  | 1 => jump operand (opcode &&& 0xC0 != 0) interrupt
  | code => modeLine ((Mode.ofCode? code).getD .text40)
      (if opcode &&& 0x40 != 0 then some operand else none)
      (opcode &&& 0x20 != 0) (opcode &&& 0x10 != 0) interrupt

/-- The bytes that an instruction takes. -/
def length : DisplayInstruction → Nat
  | blank _ _ => 1
  | jump _ _ _ => 3
  | modeLine _ scan _ _ _ => if scan.isSome then 3 else 1

/-- Whether the instruction asks for an interrupt on its last scan line. -/
def interrupt : DisplayInstruction → Bool
  | blank _ i | jump _ _ i | modeLine _ _ _ _ i => i

/-- Whether the instruction ends the frame. -/
def endsFrame : DisplayInstruction → Bool
  | jump _ verticalBlank _ => verticalBlank
  | blank _ _ | modeLine _ _ _ _ _ => false

def text (i : DisplayInstruction) : String :=
  body i ++ (if i.interrupt then " DLI" else "")
where
  /-- The text without the interrupt. -/
  body : DisplayInstruction → String
    | blank lines _ => "BLANK " ++ toString lines
    | jump target verticalBlank _ => (if verticalBlank then "JVB " else "JMP ") ++ target.text
    | modeLine mode scan vertical horizontal _ =>
      "MODE " ++ hex .upper 1 mode.code ++
        (match scan with
          | some a => " LMS " ++ a.text
          | none => "") ++
        (if vertical then " VSCROL" else "") ++ (if horizontal then " HSCROL" else "")

end DisplayInstruction

end Atari
