import Atari.Proofs.Processor.Hits
import Atari.Proofs.Processor.Stack

/-!
# Going back

An interrupt pushes the address where it came from and the status, a call pushes the address
of its own last byte. Whatever happens behind that, an instruction that goes back finds both as long as the stack
pointer stands where it stood and the bytes of the frame are as they were.

* `Processor.FrameKept`: a frame that is still on the stack;
* **`Processor.returns_restore`**: going back restores what was before.
-/

namespace Atari

namespace Processor

/-! ## Entering -/

/-- The processor with another command pointer, of which nobody is told. -/
def placedAt (p : Processor) (a : Address) : Processor :=
  { p with registers := { p.registers with pc := a } }

section Enter

variable (p : Processor) (returnAddress : Address) (brk : Bool) (vector : Address)

theorem enterInterrupt_registers : (p.enterInterrupt returnAddress brk vector).registers =
    { (p.pushed returnAddress brk).registers with
      pc := p.interruptTarget returnAddress brk vector } := by
  rw [enterInterrupt_eq, setPc_registers]
  rfl

theorem enterInterrupt_memory :
    (p.enterInterrupt returnAddress brk vector).memory = (p.pushed returnAddress brk).memory := by
  rw [enterInterrupt_eq, setPc_memory]
  exact Board.note_memory ..

variable {p}

theorem stacked_pushAddress (h : p.NoStackHooks) {n : Nat} (small : n + 1 < 256) :
    (p.pushAddress returnAddress).stacked (n + 2) =
      returnAddress.low :: returnAddress.high :: p.stacked n := by
  rw [pushAddress, stacked_push (h.push _) _ small, stacked_push h _ (by omega)]

theorem NoStackHooks.pushAddress (h : p.NoStackHooks) : (p.pushAddress returnAddress).NoStackHooks :=
  (h.push _).push _

theorem stacked_enterInterrupt (h : p.NoStackHooks) :
    (p.enterInterrupt returnAddress brk vector).stacked 3 =
      [(p.registers.status.set .brk brk).toByte, returnAddress.low, returnAddress.high] := by
  have address : (p.pushAddress returnAddress).stacked 2 = [returnAddress.low, returnAddress.high] :=
    stacked_pushAddress returnAddress h (by decide)
  have clear : ((p.pushAddress returnAddress).setFlag .brk brk).NoStackHooks :=
    h.pushAddress returnAddress
  rw [stacked, enterInterrupt_memory, enterInterrupt_registers]
  exact (stacked_push clear _ (by decide)).trans (congrArg (_ :: ·) address)

theorem enterInterrupt_placedAt (p : Processor) (a : Address) :
    ((p.placedAt a).enterInterrupt returnAddress brk vector).registers =
        (p.enterInterrupt returnAddress brk vector).registers ∧
      ((p.placedAt a).enterInterrupt returnAddress brk vector).memory =
        (p.enterInterrupt returnAddress brk vector).memory := by
  simp only [enterInterrupt_registers, enterInterrupt_memory]
  exact ⟨rfl, rfl⟩

theorem enterInterrupt_sp : (p.enterInterrupt returnAddress brk vector).registers.sp =
    p.registers.sp - 1 - 1 - 1 := by
  rw [enterInterrupt_registers]
  rfl

end Enter

theorem step_softwareInterrupt {p : Processor}
    (operation : p.fetch.instruction.operation = .softwareInterrupt) :
    ∃ l, p.step = .ok l ((p.enterInterrupt (p.pc + 2) true interruptVector).trace l) := by
  have run : p.fetch.execute p =
      .ok .jumped (p.enterInterrupt (p.pc + 2) true interruptVector) := by
    unfold Decoded.execute
    rw [operation]
    rfl
  exact ⟨_, step_of_ok run⟩

theorem execute_call {p : Processor} (operation : p.fetch.instruction.operation = .call) :
    p.fetch.execute p = (p.fetch.target >>= fun a p' => Decoded.goTo a (p'.pushAddress (p.pc + 2))) p := by
  unfold Decoded.execute
  rw [operation]
  rfl

theorem step_call {p q : Processor} {l : LogLine}
    (operation : p.fetch.instruction.operation = .call) (step : p.step = .ok l q) :
    ∃ a, q = ((p.pushAddress (p.pc + 2)).setPc a).trace l := by
  cases run : p.fetch.execute p with
  | error e r => cases step.symm.trans (step_of_error run)
  | ok flow r =>
    have entered := run
    rw [execute_call operation] at entered
    obtain ⟨a, r', target, jump⟩ := Execution.bind_ok entered
    rw [(Decoded.target_ok target).1] at jump
    cases jump
    cases step.symm.trans (step_of_ok run)
    exact ⟨a, rfl⟩

/-! ## Going back -/

/-- A frame of `n` bytes that `q` has on its stack is still there in `s`, and is the last one. -/
structure FrameKept (q s : Processor) (n : Nat) : Prop where
  sp : s.registers.sp = q.registers.sp
  bytes : s.stacked n = q.stacked n

variable {p q s : Processor}

theorem step_returnFromInterrupt (back : s.fetch.instruction.operation = .returnFromInterrupt)
    {status low high : Byte} (frame : s.stacked 3 = [status, low, high]) :
    ∃ l t, s.step = .ok l t ∧ t.registers =
      { s.registers with
        sp := s.registers.sp + 1 + 1 + 1
        status := .written status
        pc := .ofBytes low high } := by
  cases frame
  have run : s.fetch.execute s = .ok .jumped (((s.drop.setStatus s.top).pullAddress.2).setPc
      s.drop.pullAddress.1) := by
    unfold Decoded.execute
    rw [back]
    rfl
  refine ⟨_, _, (step_of_ok run).trans (finish_jumped ..), ?_⟩
  rw [trace_registers, setPc_registers]
  rfl

theorem step_returnFromCall (back : s.fetch.instruction.operation = .returnFromCall)
    {low high : Byte} (frame : s.stacked 2 = [low, high]) :
    ∃ l t, s.step = .ok l t ∧ t.registers =
      { s.registers with sp := s.registers.sp + 1 + 1, pc := .ofBytes low high + 1 } := by
  cases frame
  have run : s.fetch.execute s = .ok .jumped (s.pullAddress.2.setPc (s.pullAddress.1 + 1)) := by
    unfold Decoded.execute
    rw [back]
    rfl
  refine ⟨_, _, (step_of_ok run).trans (finish_jumped ..), ?_⟩
  rw [trace_registers, setPc_registers]
  rfl

/-- Going back from an interrupt restores the stack pointer, the address and the status but for `B`. -/
theorem FrameKept.restores (h : p.NoStackHooks) (hardwired : p.registers.status.unused = true)
    {returnAddress : Address} {brk : Bool} {vector : Address}
    (entered : q.registers = (p.enterInterrupt returnAddress brk vector).registers)
    (memory : q.memory = (p.enterInterrupt returnAddress brk vector).memory)
    (kept : q.FrameKept s 3) (back : s.fetch.instruction.operation = .returnFromInterrupt) :
    ∃ l t, s.step = .ok l t ∧ t.registers.sp = p.registers.sp ∧ t.pc = returnAddress ∧
      t.registers.status = { p.registers.status with brk := brk } := by
  have frame : s.stacked 3 =
      [(p.registers.status.set .brk brk).toByte, returnAddress.low, returnAddress.high] := by
    rw [kept.bytes, stacked, entered, memory]
    exact stacked_enterInterrupt returnAddress brk vector h
  obtain ⟨l, t, step, registers⟩ := step_returnFromInterrupt back frame
  refine ⟨l, t, step, ?_, ?_, ?_⟩
  · rw [registers]
    dsimp only
    rw [kept.sp, entered, enterInterrupt_sp, UInt8.sub_add_cancel, UInt8.sub_add_cancel,
      UInt8.sub_add_cancel]
  · rw [pc, registers]
    exact Address.ofBytes_low_high returnAddress
  · rw [registers, Status.written, Status.ofByte_toByte, ← hardwired]
    rfl

/-- Going back from a call restores the stack pointer and goes on behind the call. -/
theorem FrameKept.restores_call (h : p.NoStackHooks) {a : Address} {l : LogLine}
    (kept : (((p.pushAddress (p.pc + 2)).setPc a).trace l).FrameKept s 2)
    (back : s.fetch.instruction.operation = .returnFromCall) :
    ∃ l t, s.step = .ok l t ∧ t.registers.sp = p.registers.sp ∧ t.pc = p.pc + 3 := by
  have frame : s.stacked 2 = [(p.pc + 2).low, (p.pc + 2).high] := by
    rw [kept.bytes, stacked, trace_memory, trace_registers, setPc_memory, setPc_registers]
    exact stacked_pushAddress (p.pc + 2) h (n := 0) (by decide)
  obtain ⟨l, t, step, registers⟩ := step_returnFromCall back frame
  refine ⟨l, t, step, ?_, ?_⟩
  · rw [registers]
    dsimp only
    rw [kept.sp, trace_registers, setPc_registers]
    show p.registers.sp - 1 - 1 + 1 + 1 = _
    rw [UInt8.sub_add_cancel, UInt8.sub_add_cancel]
  · -- The address that was pushed is that of the last byte of the call.
    rw [pc, registers]
    dsimp only
    rw [Address.ofBytes_low_high]
    exact UInt16.add_assoc p.pc 2 1

/-- **Going back restores what was before.** -/
theorem returns_restore (h : p.NoStackHooks) (hardwired : p.registers.status.unused = true) :
    (p.fetch.instruction.operation = .softwareInterrupt → ∃ l q, p.step = .ok l q ∧
      q.registers = (p.placedAt (p.pc + 1)).interrupt.registers ∧
      q.memory = (p.placedAt (p.pc + 1)).interrupt.memory ∧
      ∀ s, q.FrameKept s 3 → s.fetch.instruction.operation = .returnFromInterrupt →
        ∃ l t, s.step = .ok l t ∧ t.registers.sp = p.registers.sp ∧ t.pc = p.pc + 2 ∧
          t.registers.status = { p.registers.status with brk := true }) ∧
    (∀ s, p.nonMaskableInterrupt.FrameKept s 3 →
      s.fetch.instruction.operation = .returnFromInterrupt →
        ∃ l t, s.step = .ok l t ∧ t.registers.sp = p.registers.sp ∧ t.pc = p.pc ∧
          t.registers.status = { p.registers.status with brk := false }) ∧
    (p.fetch.instruction.operation = .call →
      (p.fetch.mode = .absolute → ∃ l q, p.step = .ok l q) ∧
      ∀ l q, p.step = .ok l q → ∀ s, q.FrameKept s 2 →
        s.fetch.instruction.operation = .returnFromCall →
          ∃ l t, s.step = .ok l t ∧ t.registers.sp = p.registers.sp ∧ t.pc = p.pc + 3) := by
  refine ⟨fun operation => ?_, fun s kept back => kept.restores h hardwired rfl rfl back,
    fun operation => ⟨fun absolute => ?_, fun l q step s kept back => ?_⟩⟩
  · -- A software interrupt returns to the second address from its own, a request to the first.
    obtain ⟨l, step⟩ := step_softwareInterrupt operation
    have next : p.pc + 2 = (p.placedAt (p.pc + 1)).pc + 1 := (UInt16.add_assoc p.pc 1 1).symm
    have same := enterInterrupt_placedAt (p.pc + 2) true interruptVector p (p.pc + 1)
    refine ⟨l, _, step, ?_, ?_, fun s kept back =>
      kept.restores h hardwired (trace_registers ..) (trace_memory ..) back⟩
    · rw [trace_registers, interrupt, ← next, same.1]
    · rw [trace_memory, interrupt, ← next, same.2]
  · have target : p.fetch.target p = .ok p.fetch.operand p := by
      unfold Decoded.target
      rw [absolute]
      rfl
    exact ⟨_, _, step_of_ok ((execute_call operation).trans (Execution.bind_of_ok target))⟩
  · obtain ⟨a, rfl⟩ := step_call operation step
    exact kept.restores_call h back

/-- A processor at the highest address whose stack pointer is about to wrap. Interrupts and calls lead to
an instruction of the given opcode. -/
def atTop (opcode back : Byte) : Processor where
  registers := { Registers.initial 0xFFFF with sp := 0x01 }
  board := { memory := ((((Memory.zero.set 0xFFFF opcode).set 0xFFFE 0x40).set 0xFFFA 0x40).set 0x0000
    0x40).set 0x0040 back }

/-- There and back: a software interrupt, a non maskable interrupt and a call. -/
theorem returns_restore_atTop :
    (∃ l q l' t, (atTop 0x00 0x40).step = .ok l q ∧ q.step = .ok l' t ∧
      t.registers.sp = 0x01 ∧ t.pc = 0x0001 ∧ t.registers.status.brk = true) ∧
    (∃ l t, (atTop 0x00 0x40).nonMaskableInterrupt.step = .ok l t ∧
      t.registers.sp = 0x01 ∧ t.pc = 0xFFFF ∧ t.registers.status.brk = false) ∧
    ∃ l q l' t, (atTop 0x20 0x60).step = .ok l q ∧ q.step = .ok l' t ∧
      t.registers.sp = 0x01 ∧ t.pc = 0x0002 := by
  have clear (opcode back : Byte) : (atTop opcode back).NoStackHooks := fun _ _ => rfl
  obtain ⟨brk, nmi, -⟩ := returns_restore (clear 0x00 0x40) rfl
  obtain ⟨-, -, call⟩ := returns_restore (clear 0x20 0x60) rfl
  obtain ⟨called, returns⟩ := call (by decide +kernel)
  refine ⟨?_, ?_, ?_⟩
  · obtain ⟨l, q, step, -, -, restored⟩ := brk (by decide +kernel)
    have back : ((atTop 0x00 0x40).afterSteps 1).fetch.instruction.operation =
        .returnFromInterrupt := by decide +kernel
    rw [afterSteps_of_ok step] at back
    obtain ⟨l', t, step', sp, pc, status⟩ := restored q ⟨rfl, rfl⟩ back
    exact ⟨l, q, l', t, step, step', sp, pc, by rw [status]⟩
  · obtain ⟨l, t, step, sp, pc, status⟩ := nmi _ ⟨rfl, rfl⟩ (by decide +kernel)
    exact ⟨l, t, step, sp, pc, by rw [status]⟩
  · obtain ⟨l, q, step⟩ := called (by decide +kernel)
    have back : ((atTop 0x20 0x60).afterSteps 1).fetch.instruction.operation =
        .returnFromCall := by decide +kernel
    rw [afterSteps_of_ok step] at back
    obtain ⟨l', t, step', sp, pc⟩ := returns l q step q ⟨rfl, rfl⟩ back
    exact ⟨l, q, l', t, step, step', sp, pc⟩

end Processor

end Atari
