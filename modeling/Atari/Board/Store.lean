import Atari.Antic.Scan

/-!
# Storing bytes

A byte that is stored at an address with hooks is in memory before the hooks are called, in the order
of registration. They are detached meanwhile, so that a hook can write to its own address without
being called again, and put back afterwards, even if the address was cleared.

* `Script.run`: runs a script;
* `Board.store`: stores one byte; `Board.poke` stores several, or refuses them all;
* `Board.nesting`: how deep hooks can be nested.
-/

namespace Atari

namespace Board

/-- Stores bytes one after the other. -/
def storeAll (store : Store) : Board → Address → List Byte → Board
  | b, _, [] => b
  | b, a, v :: data => storeAll store (store b a v) (a + 1) data

/-- Stores bytes one after the other, or refuses them when they pass the end of memory. -/
def pokeWith (store : Store) (b : Board) (a : Address) (data : List Byte) :
    Except MemoryError Board :=
  if a.toNat + data.length ≤ Memory.size then .ok (storeAll store b a data)
  else .error (.writeOverflow data.length a.toNat)

end Board

/-- Runs a script. -/
def Script.run (store : Store) : Script → Board → Board
  | .stop, b => b
  | .peek a rest, b => (rest (b.peek a)).run store b
  | .poke a data rest, b =>
    match b.pokeWith store a data with
    | .ok b => (rest (.ok ())).run store b
    | .error e => (rest (.error e)).run store b
  | .count a rest, b => (rest (b.hooks.count a)).run store b
  | .clear a rest, b =>
    (rest (b.hooks.count a)).run store { b with hooks := b.hooks.detach a }
  | .attach a hook rest, b => rest.run store { b with hooks := b.hooks.attach a (.script hook) }
  | .report e rest, b => rest.run store (b.record e)

/-- Calls a hook for a byte that was stored. A display that is drawing takes no request. -/
def Hook.call (store : Store) (hook : Hook) (a : Address) (v : Byte) (b : Board) : Board :=
  match hook with
  | .script run => (run a v).run store b
  | .waitSync i =>
    match b.withDisplay i (Display.scanLine store) with
    | some (_, b) => b
    | none => b.note .warn fun _ => "ANTIC: WSYNC written while rendering, ignored"

namespace Board

/-- Stores a byte and calls the hooks of its address, with at most `depth` calls inside each other.
Deeper hooks are not called and leave a mark. -/
def storeWithin : (depth : Nat) → Store
  | depth, b, a, v =>
    let b := b.setByte a v
    match b.hooks.on a with
    | [] => b
    | hooks => match depth with
      | 0 => { b with overrun := true }
      | depth + 1 =>
        let b := { b with hooks := b.hooks.detach a }
        let b := hooks.foldl (fun b hook => hook.call (storeWithin depth) a v b) b
        { b with hooks := b.hooks.restore a hooks }

/-- How deep hooks can be nested. Hooks that register none need at most one call for each address. -/
def nesting : Nat := 65536

/-- Stores a byte and calls the hooks of its address. -/
def store : Store := storeWithin nesting

/-- Stores bytes one after the other, or refuses them when they pass the end of memory. -/
def poke (b : Board) (a : Address) (data : List Byte) : Except MemoryError Board :=
  b.pokeWith store a data

/-- Stores bytes at a location that need not be an address. -/
def write (b : Board) (location : Nat) (data : List Byte) : Except MemoryError Board :=
  if location < Memory.size then b.poke (UInt16.ofNat location) data
  else .error (.writeOverflow data.length location)

def attach (b : Board) (a : Address) (hook : Hook) : Board :=
  { b with hooks := b.hooks.attach a hook }

/-- Takes the hooks of an address away and tells how many there were. -/
def clear (b : Board) (a : Address) : Nat × Board :=
  (b.hooks.count a, { b with hooks := b.hooks.detach a })

/-- Lets a display draw a scan line whenever a byte is stored at `WSYNC`. -/
def install (b : Board) (display : Nat) : Board := b.attach Control.wsync (.waitSync display)

def setVideo (b : Board) (s : VideoSetting) : Board := b.apply store s

def scanLine (b : Board) (display : Nat) : Option (ScanLine × Board) :=
  b.withDisplay display (Display.scanLine store)

/-- One instruction of the display list of a display. -/
def displayStep (b : Board) (display : Nat) : Option (DisplayInstruction × Board) :=
  b.withDisplay display (Display.step store)

/-- The scan lines of a display up to the end of a frame. -/
def frame (b : Board) (display : Nat) : Option (Except FrameOverrun Nat × Board) :=
  b.withDisplay display (Display.frame store)

/-- The interrupt that waits at a display, which is then delivered. -/
def takeRequest (b : Board) (display : Nat) : Option InterruptSource × Board :=
  match b.display? display with
  | some d =>
    let (request, d) := d.takeRequest
    (request, b.giveBack display d)
  | none => (none, b)

end Board

end Atari
