import Atari.Disassembly
import Atari.HexDump
import Atari.Machine.Basic

/-!
# Printed results

What is shown after a run: the report, the registers, parts of memory and listings.

* `Report.printed`: the steps that a report keeps and why the run stopped;
* `Processor.printedRegisters`, `Memory.printedDump`: the state after it;
* `Disassembly.printed`: the listing of a part of memory.
-/

namespace Atari

/-- The steps, or the last one without a trace, and why the run of `name` stopped. -/
def Report.printed (trace : Bool) (name : String) (r : Report) : List String :=
  let lines := if trace then r.lines else r.lines.getLast?.toList
  lines.map (fun l => "⚡ " ++ l.text) ++
    ["♯ " ++ name ++ ": " ++ r.stop.text ++ " after " ++ toString r.steps ++ " steps, " ++
      toString r.frames ++ " frame(s)"]

def Processor.printedRegisters (p : Processor) : String :=
  "♯ registers: " ++ p.registers.text ++ " PC=" ++ p.pc.text

/-- At most `n` bytes, the first one `offset` bytes behind `a`, up to the end of memory. -/
def Memory.bytesBehind (m : Memory) (a : Address) : (offset n : Nat) → List Byte
  | _, 0 => []
  | offset, n + 1 => match a.checkedAdd (UInt64.ofNat offset) with
    | some b => m.peek b :: m.bytesBehind a (offset + 1) n
    | none => []

/-- The bytes from an address on, as many as asked for or up to the end of memory. -/
def Memory.clipped (m : Memory) (a : Address) (length : Nat) : List Byte := m.bytesBehind a 0 length

/-- The hex dump of a part of memory. -/
def Memory.printedDump (m : Memory) (a : Address) (length : Nat) : List String :=
  HexDump.lines a.toNat (m.clipped a length)

/-- At most `n` lines of the listing from `first` on, for what starts before the location `stop`. -/
def Disassembly.printed (s : InstructionSet) (m : Memory) (first : Address) (stop n : Nat) :
    List String :=
  let lines := Disassembly.lines s m (min n (stop - first.toNat)) (some first)
  (lines.takeWhile (·.address.toNat < stop)).map Listing.text

end Atari
