import Atari.Value

/-!
# Frame buffers

A picture that keeps the color bytes of a whole frame in one row of cells. A beam draws it from left to
right and from top to bottom; what falls beyond the right edge or below the bottom is dropped. The size of a picture
is a pair of numbers; `Raster` keeps a picture in machine words.

* `FrameBuffer.pixel`, `FrameBuffer.byte`: draw on the current row;
* `FrameBuffer.horizontalSync`: ends a row, the part not drawn becomes color zero;
* `FrameBuffer.verticalSync`: ends a frame, the beam is back at the top left;
* `FrameBuffer.row?`: a row of the picture.
-/

namespace Atari

/-- The eight colors of a byte, highest bit first: set bits have the foreground color. -/
def bitColors (v foreground background : Byte) : List Byte :=
  [7, 6, 5, 4, 3, 2, 1, 0].map fun i =>
    if v.toNat.testBit i then foreground else background

/-- A picture of `height` rows of `width` colors, and the place of the beam. -/
structure FrameBuffer where
  width : Nat
  height : Nat
  /-- The colors of all rows, one row behind the other. -/
  cells : Vector Byte (width * height)
  x : Nat
  y : Nat
  /-- The number of frames that were completed. -/
  frames : Nat

namespace FrameBuffer

/-- A picture of color zero with the beam at the top left. It may have any size; `Raster.blank` makes one in machine
words. -/
def blank (width height : Nat) : FrameBuffer where
  width := width
  height := height
  cells := Vector.replicate (width * height) 0
  x := 0
  y := 0
  frames := 0

/-- A picture of the size that the video coprocessor draws at most, rounded up. -/
def standard : FrameBuffer := blank 384 240

/-! ## Drawing -/

def paint (f : FrameBuffer) (places : List Nat) (color : Byte) : FrameBuffer :=
  { f with cells := places.foldl (·.setIfInBounds · color) f.cells }

/-- The cell under the beam, unless the beam is outside. -/
def underBeam (f : FrameBuffer) : List Nat :=
  if f.x < f.width ∧ f.y < f.height then [f.y * f.width + f.x] else []

/-- The cells of a row that the beam did not reach, unless it is outside. -/
def aheadOfBeam (f : FrameBuffer) : List Nat :=
  if f.y < f.height ∧ f.x < f.width then List.range' (f.y * f.width + f.x) (f.width - f.x) else []

def pixel (f : FrameBuffer) (color : Byte) : FrameBuffer :=
  { f.paint f.underBeam color with x := f.x + 1 }

def pixels (f : FrameBuffer) (colors : List Byte) : FrameBuffer := colors.foldl pixel f

/-- Draws the eight pixels of a byte. -/
def byte (f : FrameBuffer) (v foreground background : Byte) : FrameBuffer :=
  f.pixels (bitColors v foreground background)

/-- Ends the row: the pixels that were not drawn become color zero. -/
def horizontalSync (f : FrameBuffer) : FrameBuffer :=
  { f.paint f.aheadOfBeam 0 with x := 0, y := f.y + 1 }

def verticalSync (f : FrameBuffer) : FrameBuffer :=
  { f with x := 0, y := 0, frames := f.frames + 1 }

/-! ## Rows -/

/-- The colors between the start of a row and the start of the next. -/
def slice (f : FrameBuffer) (y : Nat) : List Byte :=
  (f.cells.extract (y * f.width) ((y + 1) * f.width)).toList

def row? (f : FrameBuffer) (y : Nat) : Option (List Byte) := if y < f.height then some (f.slice y) else none

def toRows (f : FrameBuffer) : List (List Byte) := (List.range f.height).map f.slice

/-- All colors, row by row. -/
def toList (f : FrameBuffer) : List Byte := f.cells.toList

end FrameBuffer

end Atari
