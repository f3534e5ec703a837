import Atari.Antic.DisplayList
import Atari.Screen

/-!
# The video coprocessor

The state of ANTIC between two scan lines, and of the screen it draws on.

* `Antic`: the instruction under way, the beam position and the interrupt that waits;
* `Display`: the coprocessor with its screen.
-/

namespace Atari

/-- What asks for a non maskable interrupt. -/
inductive InterruptSource
  | displayList
  | verticalBlank
  deriving DecidableEq, Repr

/-- The name of an interrupt source. -/
def InterruptSource.name : InterruptSource → String
  | displayList => "DisplayList"
  | verticalBlank => "VerticalBlank"

/-- The state of the video coprocessor. -/
structure Antic where
  /-- The instruction that the remaining lines belong to. -/
  current : Option DisplayInstruction := none
  /-- The scan lines that `current` still takes; with none left the next one decodes. -/
  remaining : Nat := 0
  /-- The row of the mode line that is drawn next. -/
  row : Nat := 0
  /-- Where screen memory goes on. -/
  memoryScan : Address := 0
  /-- Whether the last mode line had vertical scrolling. -/
  scrollRegion : Bool := false
  /-- The scan lines since the last vertical sync. -/
  line : Nat := 0
  /-- The vertical syncs so far. -/
  frames : Nat := 0
  /-- The interrupt that waits to be delivered. -/
  request : Option InterruptSource := none
  deriving DecidableEq, Repr, Inhabited

/-- The coprocessor with its screen. -/
structure Display where
  antic : Antic
  screen : Screen

/-- A coprocessor that has drawn nothing yet. -/
def Display.on (screen : Screen) : Display := ⟨{}, screen⟩

end Atari
