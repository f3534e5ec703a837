import Atari.Memory.Basic

/-!
# Video control

The registers of the video chips are plain memory locations, so a program sees what the coprocessor
uses.

* `Control`: the addresses of the registers;
* `PlayfieldWidth`: how much of a line shows screen memory;
* `Video`: what the registers say;
* `VideoSetting`: one change of a register, and the bytes it stores.
-/

namespace Atari

namespace Control

def dmactl : Address := 0xD400
def chactl : Address := 0xD401
def dlistl : Address := 0xD402
def dlisth : Address := 0xD403
def hscrol : Address := 0xD404
def vscrol : Address := 0xD405
def pmbase : Address := 0xD407
def chbase : Address := 0xD409
def wsync : Address := 0xD40A
def vcount : Address := 0xD40B
def penh : Address := 0xD40C
def penv : Address := 0xD40D
def nmien : Address := 0xD40E
def nmist : Address := 0xD40F
def colpm0 : Address := 0xD012
def colpf0 : Address := 0xD016
def colbk : Address := 0xD01A
def prior : Address := 0xD01B

/-- The color register of a player; only the two lowest bits of the number count. -/
def colpm (player : Nat) : Address := colpm0 + UInt16.ofNat (player % 4)

/-- The color register of a playfield; only the two lowest bits of the number count. -/
def colpf (playfield : Nat) : Address := colpf0 + UInt16.ofNat (playfield % 4)

end Control

/-- How much of a line shows screen memory. -/
inductive PlayfieldWidth
  | disabled
  | narrow
  | normal
  | wide
  deriving DecidableEq, Repr

namespace PlayfieldWidth

/-- The name of a width. -/
def name : PlayfieldWidth → String
  | disabled => "Disabled"
  | narrow => "Narrow"
  | normal => "Normal"
  | wide => "Wide"

/-- The width that the two lowest bits of the DMA control select. -/
def ofControl (v : Byte) : PlayfieldWidth :=
  match (v &&& 0x03).toNat with
  | 0 => disabled
  | 1 => narrow
  | 2 => normal
  | _ => wide

/-- The width that is fetched for a line with horizontal scrolling. -/
def scrolled : PlayfieldWidth → PlayfieldWidth
  | disabled => disabled
  | narrow => normal
  | normal | wide => wide

/-- The bytes of a line whose mode takes `n` bytes on a normal playfield. -/
def bytes (w : PlayfieldWidth) (n : Nat) : Nat :=
  match w with
  | disabled => 0
  | narrow => n * 4 / 5
  | normal => n
  | wide => n * 6 / 5

end PlayfieldWidth

namespace Video

variable (m : Memory)

def width : PlayfieldWidth := .ofControl (m.peek Control.dmactl)

def missileDma : Bool := m.peek Control.dmactl &&& 0x04 != 0

def playerDma : Bool := m.peek Control.dmactl &&& 0x08 != 0

/-- Whether players have a row for each scan line. -/
def singleLine : Bool := m.peek Control.dmactl &&& 0x10 != 0

def displayListDma : Bool := m.peek Control.dmactl &&& 0x20 != 0

/-- Whether characters with the highest bit set are blank. -/
def blankCharacters : Bool := m.peek Control.chactl &&& 0x01 != 0

/-- Whether characters with the highest bit set are inverted. -/
def inverseCharacters : Bool := m.peek Control.chactl &&& 0x02 != 0

/-- Whether characters are upside down. -/
def reflectedCharacters : Bool := m.peek Control.chactl &&& 0x04 != 0

def displayList : Address := .ofBytes (m.peek Control.dlistl) (m.peek Control.dlisth)

def hscrol : Byte := m.peek Control.hscrol &&& 0x0F

/-- The vertical scroll, in rows. -/
def vscrol : Byte := m.peek Control.vscrol &&& 0x0F

/-- The base address of players and missiles; the register holds the high byte. -/
def pmbase : Address := .ofBytes 0 (m.peek Control.pmbase)

/-- The base address of the glyphs; the register holds the high byte. -/
def chbase : Address := .ofBytes 0 (m.peek Control.chbase)

/-- The position of the light pen, horizontal and vertical. -/
def lightPen : Byte × Byte := (m.peek Control.penh, m.peek Control.penv)

def displayListInterrupts : Bool := m.peek Control.nmien &&& 0x80 != 0

def verticalBlankInterrupts : Bool := m.peek Control.nmien &&& 0x40 != 0

/-- The color of a player. -/
def colpm (player : Nat) : Byte := m.peek (Control.colpm player)

/-- The color of a playfield. -/
def colpf (playfield : Nat) : Byte := m.peek (Control.colpf playfield)

/-- The background color. -/
def colbk : Byte := m.peek Control.colbk

end Video

/-- One change of a video register. -/
inductive VideoSetting
  | dmactl (v : Byte)
  | chactl (v : Byte)
  | displayList (a : Address)
  | hscrol (v : Byte)
  | vscrol (v : Byte)
  | pmbase (a : Address)
  | chbase (a : Address)
  | vcount (v : Byte)
  | lightPen (horizontal vertical : Byte)
  | nmien (v : Byte)
  | nmist (v : Byte)
  | colpm (player : Nat) (v : Byte)
  | colpf (playfield : Nat) (v : Byte)
  | colbk (v : Byte)
  | prior (v : Byte)
  deriving DecidableEq, Repr

/-- The bytes that a setting stores, in order. -/
def VideoSetting.stores : VideoSetting → List (Address × Byte)
  | dmactl v => [(Control.dmactl, v)]
  | chactl v => [(Control.chactl, v)]
  | displayList a => [(Control.dlistl, a.low), (Control.dlisth, a.high)]
  | hscrol v => [(Control.hscrol, v &&& 0x0F)]
  | vscrol v => [(Control.vscrol, v &&& 0x0F)]
  | pmbase a => [(Control.pmbase, a.high)]
  | chbase a => [(Control.chbase, a.high)]
  | vcount v => [(Control.vcount, v)]
  | lightPen h v => [(Control.penh, h), (Control.penv, v)]
  | nmien v => [(Control.nmien, v)]
  | nmist v => [(Control.nmist, v)]
  | colpm i v => [(Control.colpm i, v)]
  | colpf i v => [(Control.colpf i, v)]
  | colbk v => [(Control.colbk, v)]
  | prior v => [(Control.prior, v)]

end Atari
