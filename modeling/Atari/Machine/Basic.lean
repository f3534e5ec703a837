import Atari.Processor.Step

/-!
# Machines

A processor that is run until something stops it, and optionally a display.

* `Machine`: the state; `Stop`: why a run stops;
* `Machine.turn`: one step, with what the display makes of it;
* `Machine.run`: a run, with its `Report`.

The display draws a scan line whenever the program stores a byte at `WSYNC`, and whenever the program
jumps to where it is, so that the interrupts of the display can take it out of there.
-/

namespace Atari

/-- Why a run stops. -/
inductive Stop
  /-- A step left the command pointer where it was. -/
  | halted (a : Address)
  | breakpoint (a : Address)
  | stepLimit (n : Nat)
  | framesRendered (n : Nat)
  deriving DecidableEq, Repr

/-- The text that tells why a run stopped. -/
def Stop.text : Stop → String
  | halted a => "halted at " ++ a.text
  | breakpoint a => "breakpoint at " ++ a.text
  | stepLimit n => "step limit of " ++ toString n ++ " reached"
  | framesRendered n => toString n ++ " frame(s) rendered"

/-- What a run did. -/
structure Report where
  steps : Nat
  /-- The lines of all steps, or of the last one only, in the order of the steps. -/
  lines : List LogLine
  stop : Stop
  /-- The frames that the display has drawn so far. -/
  frames : Nat
  deriving DecidableEq, Repr

/-- A processor to be run. -/
structure Machine where
  processor : Processor
  /-- The number of frames to be drawn, if there is a display. -/
  frames : Option Nat
  maxSteps : Nat

namespace Machine

/-- The number of the display on the board. -/
def display : Nat := 0

/-- The frames that a display on a board has drawn. -/
def framesDrawn (b : Board) : Nat := ((b.display? display).map (·.antic.frames)).getD 0

/-- Draws a scan line on the display. -/
def drawLine (p : Processor) : Processor :=
  p.onBoard fun b => match b.scanLine display with
    | some (_, b) => b
    | none => b

/-- Delivers the interrupt that waits at the display. -/
def deliver (p : Processor) : Processor :=
  let { name, table, registers, board, onA, onX, onY, breakpoints } := p
  let (request, b) := board.takeRequest display
  let p : Processor := { name, table, registers, board := b, onA, onX, onY, breakpoints }
  match request with
  | some source =>
    (p.onBoard (·.note .debug fun _ => name ++ ": " ++ source.name ++ " interrupt")).nonMaskableInterrupt
  | none => p

/-- What a display makes of a step, and whether it has drawn the frames it should. -/
def attend (frames : Nat) (halted : Bool) (p : Processor) : Option Stop × Processor :=
  let p := deliver (if halted then drawLine p else p)
  let drawn := framesDrawn p.board
  (if frames ≤ drawn then some (.framesRendered drawn) else none, p)

/-- One step, with what the display makes of it, and why the run stops there if it does. A breakpoint
comes before everything else. -/
def turn (frames : Option Nat) : Execution (LogLine × Option Stop) := fun p =>
  let a := p.pc
  match p.step with
  | .error e p => .error e p
  | .ok l p =>
    match p.board.stop with
    | some found => .ok (l, some (.breakpoint found)) (p.onBoard fun b => { b with stop := none })
    | none =>
      let halted := p.pc = a
      match frames with
      | none => .ok (l, if halted then some (.halted a) else none) p
      | some n =>
        let (stop, p) := attend n halted p
        .ok (l, stop) p

/-- The lines that a report keeps, the latest first. -/
def keep (trace : Bool) (l : LogLine) (lines : List LogLine) : List LogLine :=
  if trace then l :: lines else [l]

/-- Takes at most `left` turns more, after `steps` turns that left `lines`, the latest first. The answer
has the number of all turns, the lines in their order, and no stop where the turns ran out. -/
def runOn (frames : Option Nat) (trace : Bool) :
    (left steps : Nat) → (lines : List LogLine) → Execution (Nat × List LogLine × Option Stop)
  | 0, steps, lines => fun p => .ok (steps, lines.reverse, none) p
  | left + 1, steps, lines => fun p =>
    match turn frames p with
    | .error e p => .error e p
    | .ok (l, some stop) p => .ok (steps + 1, (keep trace l lines).reverse, some stop) p
    | .ok (l, none) p => runOn frames trace left (steps + 1) (keep trace l lines) p

/-- A run with at most `maxSteps` steps, and its report. -/
def execution (frames : Option Nat) (maxSteps : Nat) (trace : Bool) : Execution Report := fun p =>
  match runOn frames trace maxSteps 0 [] p with
  | .error e p => .error e p
  | .ok (steps, lines, stop) p =>
    let stop := stop.getD (.stepLimit maxSteps)
    let name := p.name
    let p := p.onBoard (·.note .info fun _ =>
      name ++ ": " ++ stop.text ++ " after " ++ toString steps ++ " steps")
    .ok ⟨steps, lines, stop, framesDrawn p.board⟩ p

/-- Runs a machine. With a trace, the report keeps the lines of all steps. -/
def run (m : Machine) (trace : Bool) : Except Fault Report × Machine :=
  let { processor, frames, maxSteps } := m
  match execution frames maxSteps trace processor with
  | .ok report p => (.ok report, ⟨p, frames, maxSteps⟩)
  | .error e p => (.error e, ⟨p, frames, maxSteps⟩)

end Machine

end Atari
