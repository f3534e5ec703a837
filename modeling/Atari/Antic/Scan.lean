import Atari.Antic.Playfield
import Atari.Board.Basic

/-!
# Scan lines

The coprocessor has no clock of its own: it draws a scan line when it is asked to. With none left of
the instruction under way it decodes the next one, at the cursor that the display list registers
hold. Registers are written through the bus, which calls hooks; the way to store a byte is a
parameter.

* `Antic.step`: decodes one instruction and moves the cursor past it;
* `Antic.scanLine`: one scan line;
* `Antic.verticalSync`: the end of a frame;
* `Antic.frame`: the scan lines up to the end of a frame;
* `Display.scanLine`, `Display.step`, `Display.frame`: the same with the screen.
-/

namespace Atari

/-- A way to store a byte on the board. -/
abbrev Store := Board → Address → Byte → Board

def Board.apply (store : Store) (b : Board) (s : VideoSetting) : Board :=
  s.stores.foldl (fun b w => store b w.1 w.2) b

namespace Antic

variable (store : Store)

/-- The scan lines of a frame without a display list. -/
def linesPerFrame : Nat := 262

/-- The coprocessor at the first of `lines` scan lines of an instruction, which draws `row`. -/
def start (antic : Antic) (i : DisplayInstruction) (lines row : Nat) : Antic :=
  { antic with current := some i, remaining := lines, row := row }

/-- The first and the last row that a mode line draws. The first line of a scrolled region starts
at the vertical scroll, and the line behind the region ends there. -/
def rows (height vscrol : Nat) (inRegion scrolls : Bool) : Nat × Nat :=
  match inRegion, scrolls with
  | false, true => (min vscrol (height - 1), height - 1)
  | true, false => (0, min vscrol (height - 1))
  | false, false | true, true => (0, height - 1)

/-- Ends a frame. -/
def verticalSync (antic : Antic) (b : Board) : Antic × Board :=
  let b := b.note .debug fun _ =>
    "ANTIC: vertical sync after " ++ toString antic.line ++ " scan lines"
  let antic := { antic with line := 0, frames := antic.frames + 1, scrollRegion := false }
  let b := b.apply store (.vcount 0)
  if Video.verticalBlankInterrupts b.memory then
    let b := b.apply store (.nmist (b.peek Control.nmist ||| 0x40))
    ({ antic with request := some .verticalBlank }, b)
  else (antic, b)

/-- Decodes the instruction at the cursor and moves the cursor past it. A jump that ends the frame
raises the vertical sync. -/
def step (antic : Antic) (b : Board) : DisplayInstruction × Antic × Board :=
  let cursor := Video.displayList b.memory
  let i := DisplayInstruction.decode b.memory cursor
  let b := b.note .debug fun _ => "ANTIC: " ++ cursor.text ++ " " ++ i.text
  let behind := cursor + UInt16.ofNat i.length
  match i with
  | .blank lines _ =>
    let b := b.apply store (.displayList behind)
    (i, { antic.start i lines 0 with scrollRegion := false }, b)
  | .jump target verticalBlank _ =>
    let b := b.apply store (.displayList target)
    if verticalBlank then
      (i, verticalSync store { antic with current := some i, remaining := 0 } b)
    else (i, antic.start i 1 0, b)
  | .modeLine mode scan scrolls _ _ =>
    let b := b.apply store (.displayList behind)
    let antic := match scan with
      | some a => { antic with memoryScan := a }
      | none => antic
    let (first, last) :=
      rows mode.height (Video.vscrol b.memory).toNat antic.scrollRegion scrolls
    (i, { antic.start i (last - first + 1) first with scrollRegion := scrolls }, b)

/-- The pixels of the scan line of the instruction under way. -/
def pixels (antic : Antic) (m : Memory) : List Byte :=
  match antic.current with
  | some (.modeLine mode _ _ scrolls _) =>
    Playfield.line m mode scrolls antic.memoryScan antic.row
  | some (.jump _ _ _) => Playfield.emptyLine m
  | some (.blank _ _) | none => []

def count (antic : Antic) (b : Board) : Antic × Board :=
  let antic := { antic with line := antic.line + 1 }
  (antic, b.apply store (.vcount (UInt8.ofNat (antic.line / 2))))

/-- Where screen memory goes on behind a mode line. -/
def advance (antic : Antic) (m : Memory) : Antic :=
  match antic.current with
  | some (.modeLine mode _ _ scrolls _) =>
    { antic with
      memoryScan := antic.memoryScan + UInt16.ofNat (Playfield.fetched m mode scrolls) }
  | some (.jump _ _ _) | some (.blank _ _) | none => antic

/-- Ends a scan line, and with its last scan line the instruction under way. -/
def endLine (antic : Antic) (b : Board) : Antic × Board :=
  let (antic, b) := antic.count store b
  let antic := { antic with remaining := antic.remaining - 1, row := antic.row + 1 }
  if antic.remaining > 0 then (antic, b)
  else
    let antic := antic.advance b.memory
    if antic.current.any (·.interrupt) ∧ Video.displayListInterrupts b.memory then
      let b := b.note .debug fun _ =>
        "ANTIC: display list interrupt on scan line " ++ toString antic.line
      let b := b.apply store (.nmist (b.peek Control.nmist ||| 0x80))
      ({ antic with request := some .displayList }, b)
    else (antic, b)

/-- A scan line without a display list: frames have a fixed number of them. -/
def freeLine (antic : Antic) (b : Board) : ScanLine × Antic × Board :=
  if antic.line + 1 ≥ linesPerFrame then (.verticalSync, verticalSync store antic b)
  else (.picture [], antic.count store b)

/-- The scan line of the instruction under way. -/
def listLine (antic : Antic) (b : Board) : ScanLine × Antic × Board :=
  (.picture (antic.pixels b.memory), antic.endLine store b)

/-- One scan line, which turns out to be the vertical sync at the end of a frame. -/
def scanLine (antic : Antic) (b : Board) : ScanLine × Antic × Board :=
  if Video.displayListDma b.memory then
    if antic.remaining = 0 then
      let (i, antic, b) := antic.step store b
      if i.endsFrame then (.verticalSync, antic, b) else antic.listLine store b
    else antic.listLine store b
  else antic.freeLine store b

/-- The scan lines up to the vertical sync, but at most `n`. -/
def linesUpTo : (n : Nat) → Antic → Board → List ScanLine × Antic × Board
  | 0, antic, b => ([], antic, b)
  | n + 1, antic, b =>
    let (line, antic, b) := antic.scanLine store b
    if line = .verticalSync then ([line], antic, b)
    else
      let (lines, antic, b) := linesUpTo n antic b
      (line :: lines, antic, b)

/-- The most scan lines that a frame can have. -/
def maxLines : Nat := 312

/-- The scan lines up to the end of a frame; one more than a frame can have are drawn before it is
given up. -/
def frame (antic : Antic) (b : Board) : List ScanLine × Antic × Board :=
  linesUpTo store (maxLines + 1) antic b

end Antic

/-- Why a frame fails: no vertical sync came after so many scan lines. -/
structure FrameOverrun where
  lines : Nat
  deriving DecidableEq, Repr

/-- The text that reports the error. -/
def FrameOverrun.message (e : FrameOverrun) : String :=
  "no vertical sync after " ++ toString e.lines ++
    " scan lines, the display list does not end with a JVB"

/-- The number of scan lines of a frame that ends with a vertical sync. -/
def frameLength (lines : List ScanLine) : Except FrameOverrun Nat :=
  if lines.getLast? = some .verticalSync then .ok (lines.length - 1) else .error ⟨lines.length⟩

namespace Display

variable (store : Store)

/-- One scan line, drawn on the screen. -/
def scanLine (d : Display) (b : Board) : ScanLine × Display × Board :=
  let (line, antic, b) := d.antic.scanLine store b
  (line, ⟨antic, d.screen.present line⟩, b)

/-- One instruction of the display list. -/
def step (d : Display) (b : Board) : DisplayInstruction × Display × Board :=
  let (i, antic, b) := d.antic.step store b
  (i, ⟨antic, if i.endsFrame then d.screen.verticalSync else d.screen⟩, b)

/-- The scan lines up to the end of a frame, drawn on the screen. -/
def frame (d : Display) (b : Board) : Except FrameOverrun Nat × Display × Board :=
  let (lines, antic, b) := d.antic.frame store b
  (frameLength lines, ⟨antic, lines.foldl Screen.present d.screen⟩, b)

/-- The interrupt that waits, which is then delivered. -/
def takeRequest (d : Display) : Option InterruptSource × Display :=
  (d.antic.request, { d with antic := { d.antic with request := none } })

end Display

/-- Uses a display that is not drawing; it is away meanwhile. -/
def Board.withDisplay {α : Type} (b : Board) (i : Nat)
    (use : Display → Board → α × Display × Board) : Option (α × Board) :=
  match b.display? i with
  | some d =>
    let (x, d, b) := use d (b.lend i)
    some (x, b.giveBack i d)
  | none => none

end Atari
