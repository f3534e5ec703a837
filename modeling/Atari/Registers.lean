import Atari.Value

/-!
# Processor registers

The accumulator, the two index registers, the stack pointer, the command pointer and the status.

* `Status`: the eight flags, with `Status.toByte` and `Status.ofByte`;
* `Status.set`: one flag changed; `Status.withMask`: the flags of a mask changed;
* `Registers.initial`: the state after power up;
* **`Status.ofByte_toByte`**, **`Status.toByte_ofByte`**: the byte holds exactly the flags.
-/

namespace Atari

/-- A flag that instructions read or change. -/
inductive Flag
  | negative
  | overflow
  | brk
  | decimal
  | interrupt
  | zero
  | carry
  deriving DecidableEq, Repr

/-- The eight bits of the status, the highest first. Bit five has no use and reads as one. -/
structure Status where
  negative : Bool
  overflow : Bool
  unused : Bool
  brk : Bool
  decimal : Bool
  interrupt : Bool
  zero : Bool
  carry : Bool
  deriving DecidableEq, Repr, Inhabited

namespace Status

def toByte (s : Status) : Byte :=
  bit s.negative 0x80 ||| bit s.overflow 0x40 ||| bit s.unused 0x20 ||| bit s.brk 0x10 |||
    bit s.decimal 0x08 ||| bit s.interrupt 0x04 ||| bit s.zero 0x02 ||| bit s.carry 0x01
where
  /-- The mask if the flag is set. -/
  bit (flag : Bool) (mask : Byte) : Byte := if flag then mask else 0

/-- The status that a byte stands for. -/
def ofByte (b : Byte) : Status where
  negative := b &&& 0x80 != 0
  overflow := b &&& 0x40 != 0
  unused := b &&& 0x20 != 0
  brk := b &&& 0x10 != 0
  decimal := b &&& 0x08 != 0
  interrupt := b &&& 0x04 != 0
  zero := b &&& 0x02 != 0
  carry := b &&& 0x01 != 0

/-- Whether a flag is set. -/
def get (s : Status) : Flag → Bool
  | .negative => s.negative
  | .overflow => s.overflow
  | .brk => s.brk
  | .decimal => s.decimal
  | .interrupt => s.interrupt
  | .zero => s.zero
  | .carry => s.carry

/-- The status with one flag changed. -/
def set (s : Status) (f : Flag) (v : Bool) : Status :=
  match f with
  | .negative => { s with negative := v }
  | .overflow => { s with overflow := v }
  | .brk => { s with brk := v }
  | .decimal => { s with decimal := v }
  | .interrupt => { s with interrupt := v }
  | .zero => { s with zero := v }
  | .carry => { s with carry := v }

/-- Whether all bits of the mask are set. -/
def hasMask (s : Status) (mask : Byte) : Bool := s.toByte &&& mask == mask

/-- The status with all bits of the mask changed. -/
def withMask (s : Status) (mask : Byte) (v : Bool) : Status :=
  ofByte (if v then s.toByte ||| mask else s.toByte &&& ~~~mask)

/-- The status that a written byte gives: bit five is hardwired. -/
def written (b : Byte) : Status := { ofByte b with unused := true }

/-- One letter a flag in the order of the bits, upper case when set; bit five is a dash. -/
def text (s : Status) : String :=
  String.ofList
    [letter s.negative 'N' 'n', letter s.overflow 'V' 'v', '-', letter s.brk 'B' 'b',
      letter s.decimal 'D' 'd', letter s.interrupt 'I' 'i', letter s.zero 'Z' 'z',
      letter s.carry 'C' 'c']
where
  /-- The letter of a flag. -/
  letter (flag : Bool) (set clear : Char) : Char := if flag then set else clear

theorem ofByte_toByte (s : Status) : ofByte s.toByte = s := by
  rcases s with ⟨n, v, u, b, d, i, z, c⟩
  cases n <;> cases v <;> cases u <;> cases b <;> cases d <;> cases i <;> cases z <;> cases c <;> rfl

theorem toByte_ofByte (b : Byte) : (ofByte b).toByte = b := by
  have h : ∀ n : Fin 256, (ofByte (UInt8.ofFin n)).toByte = UInt8.ofFin n := by decide +kernel
  exact h b.toFin

end Status

/-- The registers of the processor. -/
structure Registers where
  a : Byte
  x : Byte
  y : Byte
  sp : Byte
  pc : Address
  status : Status
  deriving DecidableEq, Repr, Inhabited

namespace Registers

/-- The registers after power up: interrupts are disabled and the stack is empty. -/
def initial (pc : Address) : Registers where
  a := 0
  x := 0
  y := 0
  sp := 0xFF
  pc := pc
  status := Status.ofByte 0x34

/-- The text that shows all registers. -/
def text (r : Registers) : String :=
  "Registers [A:" ++ r.a.text ++ ", X:" ++ r.x.text ++ ", Y:" ++ r.y.text ++ " | SP:" ++ r.sp.text ++
    " CP:0x" ++ hex .lower 4 r.pc.toNat ++ " | " ++ r.status.text ++ "]"

/-- What a step leaves in the registers, as the listings show it. -/
def outcome (r : Registers) : String :=
  "[A=" ++ r.a.text ++ "][X=" ++ r.x.text ++ "][Y=" ++ r.y.text ++ "][SP=" ++ r.sp.text ++
    "][S=" ++ r.status.text ++ "]"

end Registers

end Atari
