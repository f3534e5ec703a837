import Atari.Processor.Execute

/-!
# Steps and runs

A step fetches, decodes and executes the instruction at the command pointer. Unless the instruction
wrote the command pointer, it is then moved behind the instruction.

* `Processor.fetch`: the instruction at the command pointer;
* `Processor.step`: one step;
* `Processor.runUntil`: steps up to a condition, a jump to itself or a limit.
-/

namespace Atari

namespace Processor

/-- The instruction at the command pointer. -/
def fetch (p : Processor) : Decoded :=
  let a := p.pc
  let opcode := p.memory.peek a
  let i := p.table.get opcode
  let operand := match i.mode.width with
    | 0 => 0
    | 1 => (p.memory.peek (a + 1)).toUInt16
    | _ => p.memory.pointer (a + 1) false
  ⟨a, { i with opcode := opcode }, operand⟩

def trace (p : Processor) (l : LogLine) : Processor := p.onBoard (·.note .trace fun _ => l.text)

/-- Ends a step: moves the command pointer behind the instruction, unless that wrote it. -/
def finish (d : Decoded) (flow : Flow) : Execution LogLine := fun p =>
  let p := match flow with
    | .next => p.setPc (d.address + UInt16.ofNat (1 + d.mode.width))
    | .jumped => p
  let l : LogLine := ⟨d, p.registers⟩
  .ok l (p.trace l)

/-- One step, which tells what it did. -/
def step : Execution LogLine := fun p =>
  let d := p.fetch
  match d.execute p with
  | .ok flow p => finish d flow p
  | .error e p => .error e p

/-- At most `n` steps behind those of `done`, which holds their lines, the latest first. -/
def runOn (condition : Condition) : (n : Nat) → (done : List LogLine) → Execution (List LogLine)
  | 0, done => pure done.reverse
  | n + 1, done => fun p =>
    if condition p.registers p.memory then .ok done.reverse p
    else
      let a := p.pc
      match step p with
      | .error e p => .error e p
      | .ok l p =>
        if p.pc = a then
          let name := p.name
          .ok (l :: done).reverse
            (p.onBoard (·.note .debug fun _ => name ++ ": halted at " ++ a.text))
        else runOn condition n (l :: done) p

/-- At most `n` steps, up to the first state that meets the condition; a step that leaves the command
pointer where it was is the last one. The lines are in the order of the steps. -/
def runUntil (condition : Condition) (n : Nat) : Execution (List LogLine) := runOn condition n []

end Processor

end Atari
