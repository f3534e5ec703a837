import Atari.FrameBuffer

/-!
# Screens

What the video coprocessor draws on, and the lines it draws.

* `ScanLine`: what one scan line puts on a screen;
* `Recorder`: a screen that keeps every line;
* `Screen`: a frame buffer or a recorder; `Screen.present` draws a line on it.
-/

namespace Atari

/-- What one scan line puts on a screen. -/
inductive ScanLine
  /-- Pixels, then a horizontal sync. -/
  | picture (pixels : List Byte)
  /-- A vertical sync alone. -/
  | verticalSync
  deriving DecidableEq, Repr

/-- A screen that keeps every line. -/
structure Recorder where
  /-- The completed lines, the latest first. -/
  lines : List ScanLine := []
  /-- The pixels of the line under way, the latest first. -/
  pixels : List Byte := []
  /-- The horizontal syncs since the last vertical sync. -/
  position : Nat := 0
  deriving DecidableEq, Repr

/-- A screen. -/
inductive Screen
  | frameBuffer (f : FrameBuffer)
  | recorder (r : Recorder)

namespace Screen

/-- Draws pixels on the line under way. -/
def draw : Screen → List Byte → Screen
  | frameBuffer f, colors => frameBuffer (f.pixels colors)
  | recorder r, colors => recorder { r with pixels := colors.reverse ++ r.pixels }

/-- Ends the line under way. -/
def horizontalSync : Screen → Screen
  | frameBuffer f => frameBuffer f.horizontalSync
  | recorder r => recorder
      { lines := .picture r.pixels.reverse :: r.lines, pixels := [], position := r.position + 1 }

def verticalSync : Screen → Screen
  | frameBuffer f => frameBuffer f.verticalSync
  | recorder r => recorder { r with lines := .verticalSync :: r.lines, position := 0 }

def present (s : Screen) : ScanLine → Screen
  | .picture pixels => (s.draw pixels).horizontalSync
  | .verticalSync => s.verticalSync

/-- The number of the line under way. -/
def position : Screen → Nat
  | frameBuffer f => f.y
  | recorder r => r.position

/-- The screen without the completed lines it was asked to keep. -/
def forget : Screen → Screen
  | frameBuffer f => frameBuffer f
  | recorder r => recorder { r with lines := [] }

end Screen

end Atari
