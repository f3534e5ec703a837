import Atari.FrameBuffer
import Atari.Word

/-!
# Rasters

A frame buffer as a program keeps it: its size and the places of its cells are machine words. Their sums and products
may wrap around or stop the program, and an access to a cell that is not there stops it as well.

* `Raster.blank`: a new raster, whose size is a product of two words;
* `Raster.pixel`, `Raster.byte`, `Raster.horizontalSync`, `Raster.verticalSync`: what a `FrameBuffer` does;
* `Raster.row?`: a row of the picture.

Where the program stops there is no result.
-/

namespace Atari

/-- A frame buffer in machine words, and the place of the beam. The beam and the frames are counted in numbers: no
program runs long enough for them to leave the words. -/
structure Raster where
  width : UInt64
  height : UInt64
  /-- The colors of all rows, one row behind the other. -/
  cells : Array Byte
  x : Nat
  y : Nat
  /-- The number of frames that were completed. -/
  frames : Nat
  deriving DecidableEq, Repr

namespace Raster

/-- A raster of color zero with the beam at the top left. No program gets more cells than the signed words count. -/
def blank (checked : Bool) (width height : UInt64) : Option Raster := do
  let size ← wordProduct checked width height
  if size.toNat ≤ maxSigned64 then
    some { width, height, cells := Array.replicate size.toNat 0, x := 0, y := 0, frames := 0 }
  else none

/-! ## Cells -/

/-- Stores a color in a cell. -/
def store (r : Raster) (place : UInt64) (color : Byte) : Option Raster :=
  if place.toNat < r.cells.size then
    some { r with cells := r.cells.setIfInBounds place.toNat color }
  else none

/-- Stores a color in the cells from `start` up to `stop`. -/
def fill (r : Raster) (start stop : UInt64) (color : Byte) : Option Raster :=
  if start ≤ stop ∧ stop.toNat ≤ r.cells.size then
    let places := List.range' start.toNat (stop.toNat - start.toNat)
    some { r with cells := places.foldl (·.setIfInBounds · color) r.cells }
  else none

/-- The colors from `start` up to `stop`. -/
def slice? (r : Raster) (start stop : UInt64) : Option (List Byte) :=
  if start ≤ stop ∧ stop.toNat ≤ r.cells.size then
    some (r.cells.extract start.toNat stop.toNat).toList
  else none

/-! ## Drawing -/

/-- Stores a color under the beam, unless the beam is outside. -/
def storeUnderBeam (checked : Bool) (r : Raster) (color : Byte) : Option Raster :=
  if r.x < r.width.toNat ∧ r.y < r.height.toNat then do
    let start ← wordProduct checked (UInt64.ofNat r.y) r.width
    let place ← wordSum checked start (UInt64.ofNat r.x)
    r.store place color
  else some r

/-- Clears the cells of a row that the beam did not reach, unless it is outside. -/
def clearAheadOfBeam (checked : Bool) (r : Raster) : Option Raster :=
  if r.y < r.height.toNat ∧ r.x < r.width.toNat then do
    let start ← wordProduct checked (UInt64.ofNat r.y) r.width
    let first ← wordSum checked start (UInt64.ofNat r.x)
    let stop ← wordSum checked start r.width
    r.fill first stop 0
  else some r

def pixel (checked : Bool) (r : Raster) (color : Byte) : Option Raster :=
  (r.storeUnderBeam checked color).map fun r => { r with x := r.x + 1 }

def pixels (checked : Bool) (r : Raster) (colors : List Byte) : Option Raster := colors.foldlM (pixel checked) r

/-- Draws the eight pixels of a byte. -/
def byte (checked : Bool) (r : Raster) (v foreground background : Byte) : Option Raster :=
  r.pixels checked (bitColors v foreground background)

/-- Ends the row: the pixels that were not drawn become color zero. -/
def horizontalSync (checked : Bool) (r : Raster) : Option Raster :=
  (r.clearAheadOfBeam checked).map fun r => { r with x := 0, y := r.y + 1 }

def verticalSync (r : Raster) : Raster :=
  { r with x := 0, y := 0, frames := r.frames + 1 }

/-! ## Rows -/

/-- The colors of a row. -/
def row? (checked : Bool) (r : Raster) (y : UInt64) : Option (Option (List Byte)) :=
  if y < r.height then do
    let start ← wordProduct checked y r.width
    let next ← wordSum checked y 1
    let stop ← wordProduct checked next r.width
    let colors ← r.slice? start stop
    return some colors
  else some none

end Raster

end Atari
