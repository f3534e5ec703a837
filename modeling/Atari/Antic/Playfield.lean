import Atari.Antic.DisplayList
import Atari.Antic.Control
import Atari.FrameBuffer

/-!
# The pixels of a mode line

What one scan line of a mode line looks like: the bytes of screen memory that are shown, turned into
pixels, between two borders of the background color.

* `Playfield.shown`, `Playfield.fetched`: how many bytes are shown and how many are fetched;
* `Playfield.offset`: the first fetched byte that is shown;
* `Playfield.unit`: the pixels of one byte;
* `Playfield.line`: the pixels of the scan line.
-/

namespace Atari

namespace Playfield

def lineWidth : Nat := 384

variable (m : Memory)

def shown (mode : Mode) : Nat := (Video.width m).bytes mode.bytes

/-- The bytes that a line fetches: with horizontal scrolling those of the next wider playfield. -/
def fetched (mode : Mode) (scrolls : Bool) : Nat :=
  (if scrolls then (Video.width m).scrolled else Video.width m).bytes mode.bytes

/-- The first fetched byte that is shown. A larger scroll shows bytes nearer to the first; each
color clock of scroll counts two pixels. -/
def offset (mode : Mode) (scrolls : Bool) : Nat :=
  let spare := fetched m mode scrolls - shown m mode
  if scrolls then spare - min ((Video.hscrol m).toNat * 2 / mode.pixelsPerByte) spare else 0

/-- The pixels on each side of the shown bytes. -/
def border (mode : Mode) : Nat := (lineWidth - shown m mode * mode.pixelsPerByte) / 2

/-- A row of a glyph; only the three lowest bits of the row count. -/
def glyph (code : Byte) (row : Nat) : Byte :=
  let row := if Video.reflectedCharacters m then 7 - row % 8 else row % 8
  m.peek (Video.chbase m + (code.toUInt16 * 8 + UInt16.ofNat row))

/-- The row of the glyph that a row of a character shows, if it shows one. In the mode of ten rows,
the glyphs from `$60` on have their first two rows at the bottom. -/
def glyphRow? (mode : Mode) (code : Byte) (row : Nat) : Option Nat :=
  if mode.height = 10 then
    if 0x60 ≤ code then
      if row < 2 then none else if row < 8 then some row else some (row - 8)
    else if row < 8 then some row else none
  else some row

/-- The row of a character with one bit for each pixel. Characters with the highest bit set can be
blank or inverted. -/
def hiResGlyph (mode : Mode) (v : Byte) (row : Nat) : Byte :=
  let code := v &&& 0x7F
  let bits := match glyphRow? mode code row with
    | some row => glyph m code row
    | none => 0
  if v &&& 0x80 != 0 then
    let bits := if Video.blankCharacters m then 0 else bits
    if Video.inverseCharacters m then ~~~bits else bits
  else bits

/-- The foreground and the background of the modes with the smallest pixels: the luminance of
playfield one on the color of playfield two. -/
def hiResColors : Byte × Byte :=
  let background := Video.colpf m 2
  ((background &&& 0xF0) ||| (Video.colpf m 1 &&& 0x0F), background)

/-- The pixels of a byte with one bit for each color. -/
def oneBit (v foreground background : Byte) (pixelWidth : Nat) : List Byte :=
  (bitColors v foreground background).flatMap (List.replicate pixelWidth)

/-- The pixels of a byte with two bits for each color. -/
def twoBits (v : Byte) (color : Nat → Byte) (pixelWidth : Nat) : List Byte :=
  [6, 4, 2, 0].flatMap fun shift => List.replicate pixelWidth (color ((v.toNat >>> shift) % 4))

/-- The color of a pixel of two bits: background, then the first three playfields. -/
def fourColors : Nat → Byte
  | 0 => Video.colbk m
  | n + 1 => Video.colpf m n

/-- The pixels of one byte of screen memory, in a row of its mode line. -/
def unit (mode : Mode) (row : Nat) (v : Byte) : List Byte :=
  match mode.kind with
  | .hiResText =>
    let (foreground, background) := hiResColors m
    bitColors (hiResGlyph m mode v row) foreground background
  | .multiColorText =>
    let bits := glyph m (v &&& 0x7F) (row * 8 / mode.height)
    let color n := if n = 3 ∧ v &&& 0x80 ≠ 0 then Video.colpf m 3 else fourColors m n
    twoBits bits color 2
  | .wideText =>
    let bits := glyph m (v &&& 0x3F) (row * 8 / mode.height)
    oneBit bits (Video.colpf m (v >>> 6).toNat) (Video.colbk m) (mode.pixelsPerByte / 8)
  | .map1 => oneBit v (Video.colpf m 0) (Video.colbk m) (mode.pixelsPerByte / 8)
  | .map2 => twoBits v (fourColors m) (mode.pixelsPerByte / 4)
  | .hiResMap =>
    let (foreground, background) := hiResColors m
    bitColors v foreground background

/-- The addresses of the bytes that a line shows, from left to right. -/
def addresses (mode : Mode) (scrolls : Bool) (memoryScan : Address) : List Address :=
  (List.range (shown m mode)).map fun column =>
    memoryScan + UInt16.ofNat (offset m mode scrolls + column)

/-- The pixels of a scan line of a mode line; a disabled playfield has none. -/
def line (mode : Mode) (scrolls : Bool) (memoryScan : Address) (row : Nat) : List Byte :=
  if Video.width m = .disabled then []
  else
    let side := List.replicate (border m mode) (Video.colbk m)
    side ++ (addresses m mode scrolls memoryScan).flatMap (fun a => unit m mode row (m.peek a)) ++
      side

/-- The pixels of a line without screen memory; a disabled playfield has none. -/
def emptyLine : List Byte :=
  if Video.width m = .disabled then [] else List.replicate lineWidth (Video.colbk m)

end Playfield

end Atari
