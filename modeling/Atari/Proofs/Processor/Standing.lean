import Atari.Proofs.Processor.Log
import Atari.Proofs.Processor.Targets

/-!
# Steps that leave the command pointer where it is

A step leaves the command pointer where it is if its instruction goes on at its own address: a jump or a branch to
itself, a call of itself, a software interrupt whose vector leads to it, or going back to where it is. What the step
does besides depends on the instruction: calls and software interrupts push, and going back moves the stack pointer.

* `Processor.Stands`, `Processor.StandsFor`, `Processor.Halted`: the next step, some steps, and every further step leave
  the command pointer where it is;
* `Processor.Plain`: the documented instructions, and no hooks.
-/

namespace Atari

theorem Address.ofBytes_eq_iff {low high : Byte} {a : Address} :
    Address.ofBytes low high = a ↔ low = a.low ∧ high = a.high := by
  constructor
  · rintro rfl
    exact ⟨(low_ofBytes ..).symm, (high_ofBytes ..).symm⟩
  · rintro ⟨rfl, rfl⟩
    exact ofBytes_low_high a

theorem Address.add_one_eq_iff {a b : Address} : a + 1 = b ↔ a = b - 1 := by grind

theorem Status.eq_of_get {s t : Status} (flags : ∀ f, s.get f = t.get f) (unused : s.unused = t.unused) : s = t := by
  cases s
  cases t
  rw [Status.mk.injEq]
  exact ⟨flags .negative, flags .overflow, unused, flags .brk, flags .decimal, flags .interrupt, flags .zero,
    flags .carry⟩

theorem Registers.eq_of_parts {r s : Registers} (a : r.a = s.a) (x : r.x = s.x) (y : r.y = s.y) (sp : r.sp = s.sp)
    (pc : r.pc = s.pc) (status : r.status = s.status) : r = s := by
  cases r
  cases s
  rw [Registers.mk.injEq]
  exact ⟨a, x, y, sp, pc, status⟩

/-- The number of bytes that going back takes from the stack. -/
def Operation.pulled : Operation → Nat
  | returnFromCall => 2
  | returnFromInterrupt => 3
  | _ => 0

namespace Processor

open Decoded.destination?

variable {p q : Processor} {l : LogLine}

/-- The next step succeeds, and leaves the command pointer where it is. -/
def Stands (p : Processor) : Prop := ∃ l q, p.step = .ok l q ∧ q.pc = p.pc

/-- The next `n` steps succeed, and leave the command pointer where it is. -/
def StandsFor (p : Processor) (n : Nat) : Prop := ∀ k < n, (p.afterSteps k).Stands

/-- Every further step succeeds, and leaves the command pointer where it is now. -/
def Halted (p : Processor) : Prop := ∀ n, ∃ l q, (p.afterSteps n).step = .ok l q ∧ q.pc = p.pc

/-- The instructions are the documented ones, and no hooks wait for a store. -/
structure Plain (p : Processor) : Prop where
  table : p.table = .nmos
  free : ∀ a, p.board.hooks.on a = []

/-! ## Steps of plain processors -/

namespace Plain

variable (h : p.Plain)

include h

theorem exists_row (defined : p.fetch.instruction.operation ≠ .undefined) : ∃ i ∈ Instruction.documented,
    p.fetch.instruction.operation = i.operation ∧ p.fetch.mode = i.mode ∧ p.memory.peek p.pc = i.opcode := by
  cases entry : p.table.get? (p.memory.peek p.pc) with
  | none =>
    have missing : p.table.get (p.memory.peek p.pc) = .invalid := by rw [InstructionSet.get, entry]; rfl
    exact absurd (congrArg Instruction.operation missing) defined
  | some i =>
    have fetched := fetch_of_get? entry
    rw [h.table] at entry
    refine ⟨i, InstructionSet.mem_of_get?_ofList entry, ?_, ?_, (InstructionSet.opcode_of_get?_ofList entry).symm⟩
    · rw [fetched]
    · rw [fetched]
      rfl

theorem describes (defined : p.fetch.instruction.operation ≠ .undefined) : ∃ l q, p.step = .ok l q ∧
    (p.fetch.instruction.operation.footprint p.fetch.mode).Describes p q := by
  rcases h.exists_row defined with ⟨i, row, operation, mode, -⟩
  have serves := Instruction.serves_of_documented row
  rw [← mode, ← operation] at serves
  rcases step_describes h.free serves with ⟨l, q, step, describes, -⟩
  exact ⟨l, q, step, describes⟩

omit h in
theorem defined_of_step (step : p.step = .ok l q) : p.fetch.instruction.operation ≠ .undefined := by
  intro undefined
  have fails : p.fetch.execute p =
      .error (.invalidInstruction p.fetch.instruction.opcode p.fetch.address p.name) p := by
    unfold Decoded.execute
    rw [undefined]
  cases step.symm.trans (step_of_error fails)

theorem describes_step (step : p.step = .ok l q) :
    (p.fetch.instruction.operation.footprint p.fetch.mode).Describes p q := by
  rcases h.describes (defined_of_step step) with ⟨l', q', step', describes⟩
  cases step.symm.trans step'
  exact describes

theorem step (step : p.step = .ok l q) : q.Plain := by
  rcases (h.describes_step step).rest with ⟨registers, memory, journal, log, stop, rfl⟩
  exact ⟨h.table, h.free⟩

theorem stands_iff : p.Stands ↔ p.fetch.instruction.operation ≠ .undefined ∧ p.nextPc = p.pc := by
  constructor
  · rintro ⟨l, q, step, here⟩
    exact ⟨defined_of_step step, (step_pc step).symm.trans here⟩
  · rintro ⟨defined, here⟩
    rcases h.describes defined with ⟨l, q, step, -⟩
    exact ⟨l, q, step, (step_pc step).trans here⟩

end Plain

theorem operation_of_peek (table : q.table = p.table) (here : q.memory.peek q.pc = p.memory.peek p.pc) :
    q.fetch.instruction.operation = p.fetch.instruction.operation := by
  show (q.table.get (q.memory.peek q.pc)).operation = (p.table.get (p.memory.peek p.pc)).operation
  rw [table, here]

/-! ## When an instruction leads to itself -/

theorem Stands.destination (h : p.Stands) : p.fetch.destination? p = some p.pc := by
  rcases h with ⟨l, q, step, here⟩
  have next : p.nextPc = p.pc := (step_pc step).symm.trans here
  cases goal : p.fetch.destination? p with
  | some a =>
    rw [nextPc, goal] at next
    exact congrArg some next
  | none =>
    -- The next instruction starts one to three bytes behind this one.
    have width := width_lt p.fetch.mode
    rw [nextPc, goal] at next
    exact absurd next (Address.add_ofNat_ne_self (by omega) (by omega) p.pc)

theorem Stands.operation (h : p.Stands) : p.fetch.instruction.operation = .jump ∨
    (∃ f v, p.fetch.instruction.operation = .branch f v) ∨ p.fetch.instruction.operation = .call ∨
    p.fetch.instruction.operation = .returnFromCall ∨ p.fetch.instruction.operation = .softwareInterrupt ∨
    p.fetch.instruction.operation = .returnFromInterrupt := by
  have goal := h.destination
  cases operation : p.fetch.instruction.operation with
  | branch | jump | call | returnFromCall | softwareInterrupt | returnFromInterrupt => simp
  | _ => simp [Decoded.destination?, operation] at goal

theorem pullAddress_eq (p : Processor) : p.pullAddress.1 =
    .ofBytes (p.memory.peek (stackSlot (p.registers.sp + 1))) (p.memory.peek (stackSlot (p.registers.sp + 2))) := by
  have two : p.registers.sp + 1 + 1 = p.registers.sp + 2 := UInt8.add_assoc ..
  rw [← two]
  rfl

namespace Plain

variable (h : p.Plain)

include h

theorem call_row (operation : p.fetch.instruction.operation = .call) :
    p.memory.peek p.pc = 0x20 ∧ p.fetch.mode = .absolute := by
  rcases h.exists_row (by simp [operation]) with ⟨i, row, same, mode, opcode⟩
  have checked : Instruction.documented.all fun i =>
      i.operation = .call → i.opcode = 0x20 ∧ i.mode = .absolute := by decide +kernel
  rw [opcode, mode]
  exact of_decide_eq_true (List.all_eq_true.mp checked i row) (same.symm.trans operation)

theorem softwareInterrupt_row (operation : p.fetch.instruction.operation = .softwareInterrupt) :
    p.memory.peek p.pc = 0x00 := by
  rcases h.exists_row (by simp [operation]) with ⟨i, row, same, -, opcode⟩
  have checked : Instruction.documented.all fun i =>
      i.operation = .softwareInterrupt → i.opcode = 0x00 := by decide +kernel
  rw [opcode]
  exact of_decide_eq_true (List.all_eq_true.mp checked i row) (same.symm.trans operation)

theorem stands_call_iff (operation : p.fetch.instruction.operation = .call) :
    p.Stands ↔ p.memory.peek (p.pc + 1) = p.pc.low ∧ p.memory.peek (p.pc + 2) = p.pc.high := by
  have absolute := (h.call_row operation).2
  have operand : p.fetch.operand = p.memory.pointer (p.pc + 1) false := by
    have width : (p.table.get (p.memory.peek p.pc)).mode = .absolute := absolute
    simp [fetch, width, AddressingMode.width]
  have next : p.nextPc = p.fetch.operand := by
    simp [nextPc, Decoded.destination?, operation, operandAddress?, AddressingMode.address, AddressingMode.evaluate,
      absolute, Except.toOption]
  have two : p.pc + 1 + 1 = p.pc + 2 := UInt16.add_assoc ..
  rw [h.stands_iff, next, operand, Memory.pointer, if_neg Bool.false_ne_true, two, Address.ofBytes_eq_iff]
  simp [operation]

theorem stands_returnFromCall_iff (operation : p.fetch.instruction.operation = .returnFromCall) :
    p.Stands ↔ p.memory.peek (stackSlot (p.registers.sp + 1)) = (p.pc - 1).low ∧
      p.memory.peek (stackSlot (p.registers.sp + 2)) = (p.pc - 1).high := by
  have next : p.nextPc = p.pullAddress.1 + 1 := by simp [nextPc, Decoded.destination?, operation]
  rw [h.stands_iff, next, pullAddress_eq, ← Address.ofBytes_eq_iff, Address.add_one_eq_iff]
  simp [operation]

theorem stands_returnFromInterrupt_iff (operation : p.fetch.instruction.operation = .returnFromInterrupt) :
    p.Stands ↔ p.memory.peek (stackSlot (p.registers.sp + 2)) = p.pc.low ∧
      p.memory.peek (stackSlot (p.registers.sp + 3)) = p.pc.high := by
  have two : p.drop.registers.sp + 1 = p.registers.sp + 2 := UInt8.add_assoc ..
  have three : p.drop.registers.sp + 2 = p.registers.sp + 3 := UInt8.add_assoc ..
  have next : p.nextPc = p.drop.pullAddress.1 := by simp [nextPc, Decoded.destination?, operation]
  rw [h.stands_iff, next, pullAddress_eq, ← Address.ofBytes_eq_iff, two, three]
  simp [operation]
  rfl

end Plain

/-! ## What is pushed -/

section Pushes

variable (sp x y z : Byte) (m : Memory)

theorem peek_pushes_of_high {a : Address} (off : a.high ≠ 1) (data : List Byte) :
    ((pushes sp data).foldl (fun m w => m.set w.1 w.2) m).peek a = m.peek a := by
  refine Memory.peek_foldl_set (fun mem => ?_) m
  rcases List.mem_map.mp mem with ⟨w, pushed, rfl⟩
  rcases onStack_of_mem_pushes pushed with ⟨v, slot⟩
  exact off (slot ▸ high_stackSlot v)

theorem peek_pushes_two (v : Byte) :
    ((pushes sp [x, y]).foldl (fun m w => m.set w.1 w.2) m).peek (stackSlot v) =
      if v = sp then x else if v = sp - 1 then y else m.peek (stackSlot v) := by
  have apart : sp - 1 ≠ sp := by grind
  simp only [pushes, List.foldl_cons, List.foldl_nil, Memory.peek_set, stackSlot_inj]
  grind

theorem peek_pushes_three (v : Byte) :
    ((pushes sp [x, y, z]).foldl (fun m w => m.set w.1 w.2) m).peek (stackSlot v) =
      if v = sp then x else if v = sp - 1 then y else if v = sp - 2 then z else m.peek (stackSlot v) := by
  have two : sp - 1 - 1 = sp - 2 := by grind
  simp only [pushes, List.foldl_cons, List.foldl_nil, Memory.peek_set, stackSlot_inj, two]
  grind

end Pushes

namespace Plain

variable (h : p.Plain)

include h

theorem pushed_memory (a : Address) (brk : Bool) : (p.pushed a brk).memory =
    (p.interruptWrites a brk).foldl (fun m w => m.set w.1 w.2) p.memory := by
  have bus := (p.pushed_follows a brk).board.sameBus.memory
  rwa [Board.storeList_of_free h.free] at bus

theorem stands_softwareInterrupt_iff (operation : p.fetch.instruction.operation = .softwareInterrupt) :
    p.Stands ↔ p.memory.pointer interruptVector false = p.pc := by
  have next : p.nextPc = p.interruptTarget (p.pc + 2) true interruptVector := by
    simp [nextPc, Decoded.destination?, operation]
    rfl
  have vector : p.interruptTarget (p.pc + 2) true interruptVector = p.memory.pointer interruptVector false := by
    have low : interruptVector.high ≠ 1 := by decide
    have high : (interruptVector + 1).high ≠ 1 := by decide
    simp only [interruptTarget, Memory.pointer, h.pushed_memory, interruptWrites]
    rw [peek_pushes_of_high _ _ low, if_neg Bool.false_ne_true, peek_pushes_of_high _ _ high]
  rw [h.stands_iff, next, vector]
  simp [operation]

/-! ## What a step leaves -/

theorem call_leaves (step : p.step = .ok l q) (operation : p.fetch.instruction.operation = .call) :
    q.registers.sp = p.registers.sp - 2 ∧ (∀ a : Address, a.high ≠ 1 → q.memory.peek a = p.memory.peek a) ∧
      ∀ v, q.memory.peek (stackSlot v) = if v = p.registers.sp then (p.pc + 2).high
        else if v = p.registers.sp - 1 then (p.pc + 2).low else p.memory.peek (stackSlot v) := by
  have describes := h.describes_step step
  have writes : p.fetch.writes p = pushes p.registers.sp [(p.pc + 2).high, (p.pc + 2).low] := by
    simp [Decoded.writes, operation]
    rfl
  have moves := describes.sp
  rw [operation] at moves
  rw [describes.memory, writes]
  exact ⟨moves, fun a off => peek_pushes_of_high _ _ off _, peek_pushes_two _ _ _ _⟩

theorem softwareInterrupt_leaves (step : p.step = .ok l q)
    (operation : p.fetch.instruction.operation = .softwareInterrupt) :
    q.registers.sp = p.registers.sp - 3 ∧ (∀ a : Address, a.high ≠ 1 → q.memory.peek a = p.memory.peek a) ∧
      ∀ v, q.memory.peek (stackSlot v) = if v = p.registers.sp then (p.pc + 2).high
        else if v = p.registers.sp - 1 then (p.pc + 2).low
        else if v = p.registers.sp - 2 then (p.registers.status.set .brk true).toByte
        else p.memory.peek (stackSlot v) := by
  have describes := h.describes_step step
  have writes : p.fetch.writes p = p.interruptWrites (p.pc + 2) true := by
    simp [Decoded.writes, operation]
    rfl
  have moves := describes.sp
  rw [operation] at moves
  rw [describes.memory, writes, interruptWrites]
  exact ⟨moves, fun a off => peek_pushes_of_high _ _ off _, peek_pushes_three _ _ _ _ _⟩

/-- Instructions that lead to themselves without a push leave memory as it is. -/
theorem steady_leaves (step : p.step = .ok l q) (here : q.pc = p.pc)
    (call : p.fetch.instruction.operation ≠ .call)
    (interrupt : p.fetch.instruction.operation ≠ .softwareInterrupt) :
    q.memory = p.memory ∧ q.fetch = p.fetch ∧
      q.registers.sp = p.registers.sp + UInt8.ofNat p.fetch.instruction.operation.pulled := by
  have describes := h.describes_step step
  have stored : p.fetch.writes p = [] ∧
      (p.fetch.instruction.operation.footprint p.fetch.mode).stack.pointer p.registers =
        p.registers.sp + UInt8.ofNat p.fetch.instruction.operation.pulled := by
    rcases Stands.operation ⟨l, q, step, here⟩ with e | ⟨f, v, e⟩ | e | e | e | e
    · simp [Decoded.writes, e, Operation.footprint, StackUse.pointer, Operation.pulled]
    · simp [Decoded.writes, e, Operation.footprint, StackUse.pointer, Operation.pulled]
    · exact absurd e call
    · simp [Decoded.writes, e, Operation.footprint, StackUse.pointer, Operation.pulled]
    · exact absurd e interrupt
    · simp [Decoded.writes, e, Operation.footprint, StackUse.pointer, Operation.pulled]
  have memory : q.memory = p.memory := by rw [describes.memory, stored.1, List.foldl_nil]
  have table : q.table = p.table := (h.step step).table.trans h.table.symm
  refine ⟨memory, ?_, describes.sp.trans stored.2⟩
  unfold fetch
  rw [here, memory, table]

theorem registers_behind (step : p.step = .ok l q) (here : q.pc = p.pc)
    (bare : p.fetch.instruction.operation.footprint p.fetch.mode = {}) : q.registers = p.registers := by
  have describes := h.describes_step step
  rw [bare] at describes
  have register (r : Register) : q.register r = p.register r := describes.registers.register r nofun
  have flag (f : Flag) : q.flag f = p.flag f := describes.registers.flag rfl f List.not_mem_nil
  have status : q.registers.status = p.registers.status := Status.eq_of_get flag (describes.registers.unused rfl)
  exact Registers.eq_of_parts (register .a) (register .x) (register .y) describes.sp here status

end Plain

/-! ## Standing for ever -/

theorem afterSteps_add (m n : Nat) (p : Processor) : p.afterSteps (m + n) = (p.afterSteps m).afterSteps n := by
  induction m generalizing p with
  | zero => rw [Nat.zero_add, afterSteps]
  | succ m ih =>
    rw [Nat.succ_add]
    cases step : p.step with
    | ok l q => rw [afterSteps_of_ok step, afterSteps_of_ok step, ih]
    | error e q => rw [afterSteps_of_error step, afterSteps_of_error step, afterSteps_of_error step]

theorem afterSteps_succ {n : Nat} (step : (p.afterSteps n).step = .ok l q) : p.afterSteps (n + 1) = q := by
  rw [afterSteps_add, afterSteps_of_ok step, afterSteps]

theorem Plain.afterSteps (h : p.Plain) (n : Nat) : (p.afterSteps n).Plain := by
  induction n generalizing p with
  | zero => exact h
  | succ n ih =>
    cases step : p.step with
    | ok l q =>
      rw [afterSteps_of_ok step]
      exact ih (h.step step)
    | error e q => rwa [afterSteps_of_error step]

theorem halted_of_invariant (Inv : Processor → Prop)
    (kept : ∀ p, Inv p → ∃ l q, p.step = .ok l q ∧ q.pc = p.pc ∧ Inv q) (h : Inv p) : p.Halted := by
  have along (n : Nat) : Inv (p.afterSteps n) ∧ (p.afterSteps n).pc = p.pc := by
    induction n with
    | zero => exact ⟨h, rfl⟩
    | succ n ih =>
      rcases kept _ ih.1 with ⟨l, q, step, here, inv⟩
      rw [afterSteps_succ step]
      exact ⟨inv, here.trans ih.2⟩
  intro n
  rcases kept _ (along n).1 with ⟨l, q, step, here, -⟩
  exact ⟨l, q, step, here.trans (along n).2⟩

theorem halted_iff_of_step (step : p.step = .ok l q) (here : q.pc = p.pc) : q.Halted ↔ p.Halted := by
  constructor
  · intro halted n
    cases n with
    | zero => exact ⟨l, q, step, here⟩
    | succ n =>
      rw [afterSteps_of_ok step, ← here]
      exact halted n
  · intro halted n
    rw [← afterSteps_of_ok step, here]
    exact halted (n + 1)

namespace StandsFor

variable {n k : Nat} (h : p.StandsFor n)

include h

theorem pc (before : k ≤ n) : (p.afterSteps k).pc = p.pc := by
  induction k with
  | zero => rfl
  | succ k ih =>
    rcases h k before with ⟨l, q, step, here⟩
    rw [afterSteps_succ step, here, ih (by omega)]

theorem step (before : k < n) : ∃ l, (p.afterSteps k).step = .ok l (p.afterSteps (k + 1)) := by
  rcases h k before with ⟨l, q, step, -⟩
  exact ⟨l, by rwa [afterSteps_succ step]⟩

theorem afterSteps {m : Nat} (few : k + m ≤ n) : (p.afterSteps k).StandsFor m := by
  intro i before
  rw [← afterSteps_add]
  exact h (k + i) (by omega)

theorem halted (halted : (p.afterSteps n).Halted) : p.Halted := by
  intro k
  rcases Nat.lt_or_ge k n with before | behind
  · rcases h k before with ⟨l, q, step, here⟩
    exact ⟨l, q, step, here.trans (h.pc (by omega))⟩
  · have later := halted (k - n)
    rwa [← afterSteps_add, h.pc (Nat.le_refl n), Nat.add_sub_cancel' behind] at later

end StandsFor

theorem Halted.standsFor (h : p.Halted) (n : Nat) : p.StandsFor n := by
  have stays (k : Nat) : (p.afterSteps k).pc = p.pc := by
    cases k with
    | zero => rfl
    | succ k =>
      rcases h k with ⟨l, q, step, here⟩
      rwa [afterSteps_succ step]
  intro k _
  rcases h k with ⟨l, q, step, here⟩
  exact ⟨l, q, step, here.trans (stays k).symm⟩

end Processor

end Atari
