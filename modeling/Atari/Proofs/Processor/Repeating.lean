import Atari.Proofs.Processor.Standing

/-!
# Standing for ever

A step that leaves the command pointer where it is may be followed by one that does not: going back moves the stack
pointer on to other bytes, and what is pushed may fall on the instruction itself.

* `Address.inSlot`: the bytes of a stack that is full of one address;
* `Processor.Repeats`: when the same step is done for ever; **`Processor.Repeats.halted`**: it is;
* `Processor.StandsFor.walk`: what becomes of the stack pointer meanwhile; **`Processor.StandsFor.exists_repeats`**: who
  stands long enough has come to such a step;
* **`Processor.halted_iff_repeats`**, **`Processor.halted_iff`**, **`Processor.halted_iff_standsFor`**: who stands for
  ever.
-/

namespace Atari

/-! ## Slots -/

/-- The byte in the slot `v` of a stack that is full of copies of an address, the high byte of the next one in the free
slot. -/
def Address.inSlot (a : Address) (sp v : Byte) : Byte := if (sp - v) % 2 = 0 then a.high else a.low

namespace Address

variable (a : Address) (sp v : Byte)

theorem inSlot_add_two : a.inSlot (sp + 2) v = a.inSlot sp v := by
  have shift : (sp + 2 - v) % 2 = (sp - v) % 2 := by
    have moved : sp + 2 - v = sp - v + 2 := by grind
    rw [moved]
    apply UInt8.toNat_inj.mp
    rw [UInt8.toNat_mod, UInt8.toNat_mod, UInt8.toNat_add]
    simp
  rw [inSlot, inSlot, shift]

theorem inSlot_sub_two : a.inSlot (sp - 2) v = a.inSlot sp v := by
  rw [← inSlot_add_two, UInt8.sub_add_cancel]

theorem inSlot_add_double (n : Nat) : a.inSlot (sp + UInt8.ofNat (2 * n)) v = a.inSlot sp v := by
  induction n with
  | zero => rw [show sp + UInt8.ofNat (2 * 0) = sp from UInt8.add_zero _]
  | succ n ih =>
    have next : sp + UInt8.ofNat (2 * (n + 1)) = sp + UInt8.ofNat (2 * n) + 2 := by
      rw [Nat.mul_succ, UInt8.ofNat_add, UInt8.add_assoc]
      rfl
    rw [next, inSlot_add_two, ih]

theorem inSlot_self : a.inSlot sp sp = a.high := by
  rw [inSlot, UInt8.sub_self]
  rfl

theorem inSlot_sub_one : a.inSlot sp (sp - 1) = a.low := by
  have one : sp - (sp - 1) = 1 := by grind
  rw [inSlot, one]
  rfl

theorem inSlot_add_one : a.inSlot sp (sp + 1) = a.low := by
  have one : sp - (sp + 1) = 255 := by grind
  rw [inSlot, one]
  rfl

theorem inSlot_two_above : a.inSlot sp (sp + 2) = a.high := by
  have two : sp - (sp + 2) = 254 := by grind
  rw [inSlot, two]
  rfl

end Address

theorem exists_double (d : Byte) : ∃ n < 128, d = UInt8.ofNat (2 * n) ∨ d = UInt8.ofNat (2 * n) + 1 := by
  have := d.toNat_lt
  refine ⟨d.toNat / 2, by omega, ?_⟩
  rcases Nat.mod_two_eq_zero_or_one d.toNat with even | odd
  · left
    apply UInt8.toNat_inj.mp
    simp
    omega
  · right
    apply UInt8.toNat_inj.mp
    simp
    omega

theorem exists_triple (d : Byte) : ∃ n < 256, d = UInt8.ofNat (3 * n) := by
  refine ⟨171 * d.toNat % 256, by omega, UInt8.toNat_inj.mp ?_⟩
  have := d.toNat_lt
  simp
  omega

theorem moved_of_down {f : Nat → Byte} {n c : Nat} (down : ∀ k < n, f (k + 1) = f k - UInt8.ofNat c) :
    f n + UInt8.ofNat (c * n) = f 0 := by
  induction n with
  | zero => exact UInt8.add_zero _
  | succ n ih =>
    rw [down n (by omega), ← ih fun k before => down k (by omega), Nat.mul_succ, UInt8.ofNat_add]
    grind

theorem Address.high_add_two {a : Address} (page : a.high = 1) : (a + 2).high = 1 ∨ (a + 2).high = 2 := by
  have here := toNat_ofBytes a.low a.high
  have there := toNat_ofBytes (a + 2).low (a + 2).high
  have low := a.low.toNat_lt
  have low' := (a + 2).low.toNat_lt
  rw [ofBytes_low_high] at here there
  rw [UInt16.toNat_add] at there
  rw [page] at here
  have values : (a + 2).high.toNat = 1 ∨ (a + 2).high.toNat = 2 := by
    simp at here there
    omega
  exact values.imp (fun e => UInt8.toNat_inj.mp e) fun e => UInt8.toNat_inj.mp e

namespace Processor

variable {p q : Processor} {l : LogLine}

theorem stackSlot_low {a : Address} (h : a.high = 1) : stackSlot a.low = a := by
  rw [stackSlot_eq, ← h, Address.ofBytes_low_high]

/-! ## Steps that are repeated -/

/-- Whether a step that leaves the command pointer where it is, is done again and again. Jumps and branches change
nothing. Going back finds its address all over the stack, with the status in between for an interrupt. A call must
find its own bytes again where it pushes over them, and a software interrupt must not push over itself. -/
def Repeats (p : Processor) : Prop :=
  match p.fetch.instruction.operation with
  | .branch _ _ | .jump => True
  | .call => ∀ k < 3, (p.pc + UInt16.ofNat k).high = 1 →
      p.memory.peek (p.pc + UInt16.ofNat k) = (p.pc + 2).inSlot p.registers.sp (p.pc + UInt16.ofNat k).low
  | .returnFromCall => ∀ v, p.memory.peek (stackSlot v) = (p.pc - 1).inSlot p.registers.sp v
  | .softwareInterrupt => p.pc.high ≠ 1
  | .returnFromInterrupt => ∀ v, p.memory.peek (stackSlot v) = p.pc.low ∧ p.memory.peek (stackSlot v) = p.pc.high
  | _ => False

theorem repeats_jump (operation : p.fetch.instruction.operation = .jump ∨
    ∃ f v, p.fetch.instruction.operation = .branch f v) : p.Repeats := by
  rcases operation with jump | ⟨f, v, branch⟩
  · simp [Repeats, jump]
  · simp [Repeats, branch]

theorem Plain.call_keeps (h : p.Plain) (step : p.step = .ok l q)
    (operation : p.fetch.instruction.operation = .call) {a : Address}
    (found : a.high = 1 → p.memory.peek a = (p.pc + 2).inSlot p.registers.sp a.low) :
    q.memory.peek a = p.memory.peek a := by
  rcases h.call_leaves step operation with ⟨-, others, pushed⟩
  by_cases page : a.high = 1
  · have bytes := pushed a.low
    have here := found page
    rw [stackSlot_low page] at bytes
    rw [bytes]
    split_ifs with first second
    · rw [here, first, Address.inSlot_self]
    · rw [here, second, Address.inSlot_sub_one]
    · rfl
  · exact others a page

/-! ### One step more -/

section Behind

variable (h : p.Plain) (step : p.step = .ok l q) (here : q.pc = p.pc)

include h step here

/-- A jump or a branch leaves all that it depends on. -/
theorem behind_jump (operation : p.fetch.instruction.operation = .jump ∨
    ∃ f v, p.fetch.instruction.operation = .branch f v) : q.Stands ∧ q.Repeats := by
  have steady : p.fetch.instruction.operation.footprint p.fetch.mode = {} ∧
      p.fetch.instruction.operation ≠ .call ∧ p.fetch.instruction.operation ≠ .softwareInterrupt := by
    rcases operation with jump | ⟨f, v, branch⟩
    · simp [jump, Operation.footprint]
    · simp [branch, Operation.footprint]
  rcases h.steady_leaves step here steady.2.1 steady.2.2 with ⟨memory, fetched, -⟩
  have registers := h.registers_behind step here steady.1
  have next : q.nextPc = p.nextPc := by
    unfold nextPc Decoded.destination? Decoded.destination?.operandAddress? flag
    rcases operation with jump | ⟨f, v, branch⟩
    · rw [fetched, jump, registers, memory, here]
    · rw [fetched, branch, registers, memory, here]
  rcases h.stands_iff.mp ⟨l, q, step, here⟩ with ⟨defined, goal⟩
  constructor
  · rw [(h.step step).stands_iff, fetched, next, here]
    exact ⟨defined, goal⟩
  · rw [← fetched] at operation
    exact repeats_jump operation

theorem Repeats.behind_call (operation : p.fetch.instruction.operation = .call) (again : p.Repeats) :
    q.Stands ∧ q.Repeats := by
  have plain := h.step step
  have table : q.table = p.table := plain.table.trans h.table.symm
  simp only [Repeats, operation] at again
  have kept (k : Nat) (few : k < 3) : q.memory.peek (p.pc + UInt16.ofNat k) = p.memory.peek (p.pc + UInt16.ofNat k) :=
    h.call_keeps step operation (again k few)
  have first : q.memory.peek q.pc = p.memory.peek p.pc := by
    have := kept 0 (by decide)
    rw [here]
    rwa [show p.pc + UInt16.ofNat 0 = p.pc from UInt16.add_zero _] at this
  have second : q.memory.peek (p.pc + 1) = p.memory.peek (p.pc + 1) := kept 1 (by decide)
  have third : q.memory.peek (p.pc + 2) = p.memory.peek (p.pc + 2) := kept 2 (by decide)
  have called : q.fetch.instruction.operation = .call := (operation_of_peek table first).trans operation
  constructor
  · rw [plain.stands_call_iff called, here, second, third]
    exact (h.stands_call_iff operation).mp ⟨l, q, step, here⟩
  · have moved := (h.call_leaves step operation).1
    simp only [Repeats, called]
    intro k few page
    rw [here] at page ⊢
    rw [kept k few, again k few page, moved, Address.inSlot_sub_two]

theorem Repeats.behind_returnFromCall (operation : p.fetch.instruction.operation = .returnFromCall)
    (again : p.Repeats) : q.Stands ∧ q.Repeats := by
  rcases h.steady_leaves step here (by simp [operation]) (by simp [operation]) with ⟨memory, fetched, moved⟩
  have two : q.registers.sp = p.registers.sp + 2 := by rw [moved, operation]; rfl
  simp only [Repeats, operation] at again
  have again (v : Byte) : q.memory.peek (stackSlot v) = (q.pc - 1).inSlot q.registers.sp v := by
    rw [memory, again, two, here, Address.inSlot_add_two]
  have back : q.fetch.instruction.operation = .returnFromCall := by rw [fetched, operation]
  constructor
  · rw [(h.step step).stands_returnFromCall_iff back, again, again, Address.inSlot_add_one, Address.inSlot_two_above]
    exact ⟨rfl, rfl⟩
  · simpa only [Repeats, back] using again

theorem Repeats.behind_softwareInterrupt (operation : p.fetch.instruction.operation = .softwareInterrupt)
    (again : p.Repeats) : q.Stands ∧ q.Repeats := by
  have plain := h.step step
  have table : q.table = p.table := plain.table.trans h.table.symm
  rcases h.softwareInterrupt_leaves step operation with ⟨-, others, -⟩
  simp only [Repeats, operation] at again
  have first : q.memory.peek q.pc = p.memory.peek p.pc := by rw [here, others p.pc again]
  have interrupts : q.fetch.instruction.operation = .softwareInterrupt :=
    (operation_of_peek table first).trans operation
  have vector : q.memory.pointer interruptVector false = p.memory.pointer interruptVector false := by
    rw [Memory.pointer, Memory.pointer, others _ (by decide), if_neg Bool.false_ne_true, others _ (by decide)]
  constructor
  · rw [plain.stands_softwareInterrupt_iff interrupts, vector, here]
    exact (h.stands_softwareInterrupt_iff operation).mp ⟨l, q, step, here⟩
  · simpa only [Repeats, interrupts, here] using again

theorem Repeats.behind_returnFromInterrupt (operation : p.fetch.instruction.operation = .returnFromInterrupt)
    (again : p.Repeats) : q.Stands ∧ q.Repeats := by
  rcases h.steady_leaves step here (by simp [operation]) (by simp [operation]) with ⟨memory, fetched, -⟩
  simp only [Repeats, operation] at again
  have back : q.fetch.instruction.operation = .returnFromInterrupt := by rw [fetched, operation]
  constructor
  · rw [(h.step step).stands_returnFromInterrupt_iff back, memory, here]
    exact ⟨(again _).1, (again _).2⟩
  · simpa only [Repeats, back, memory, here] using again

/-- **A step that is repeated is followed by one that is repeated.** -/
theorem Repeats.behind (again : p.Repeats) : q.Stands ∧ q.Repeats := by
  cases operation : p.fetch.instruction.operation with
  | branch f v => exact behind_jump h step here (.inr ⟨f, v, operation⟩)
  | jump => exact behind_jump h step here (.inl operation)
  | call => exact again.behind_call h step here operation
  | returnFromCall => exact again.behind_returnFromCall h step here operation
  | softwareInterrupt => exact again.behind_softwareInterrupt h step here operation
  | returnFromInterrupt => exact again.behind_returnFromInterrupt h step here operation
  | _ => simp [Repeats, operation] at again

end Behind

/-- **A step that is repeated is repeated for ever.** -/
theorem Repeats.halted (h : p.Plain) (stands : p.Stands) (again : p.Repeats) : p.Halted := by
  refine halted_of_invariant (fun p => p.Plain ∧ p.Stands ∧ p.Repeats) ?_ ⟨h, stands, again⟩
  rintro p ⟨h, ⟨l, q, step, here⟩, again⟩
  rcases again.behind h step here with ⟨stands, again⟩
  exact ⟨l, q, step, here, h.step step, stands, again⟩

/-! ## Standing long enough -/

namespace StandsFor

variable {n : Nat} (standing : p.StandsFor n) (h : p.Plain)

include standing h

/-- Instructions that do not push: memory stays, and the stack pointer moves by the same number in each step. -/
theorem walk (call : p.fetch.instruction.operation ≠ .call)
    (interrupt : p.fetch.instruction.operation ≠ .softwareInterrupt) {k : Nat} (before : k ≤ n) :
    (p.afterSteps k).memory = p.memory ∧ (p.afterSteps k).fetch = p.fetch ∧
      (p.afterSteps k).registers.sp = p.registers.sp + UInt8.ofNat (p.fetch.instruction.operation.pulled * k) := by
  induction k with
  | zero => exact ⟨rfl, rfl, (UInt8.add_zero _).symm⟩
  | succ k ih =>
    rcases ih (by omega) with ⟨memory, fetched, moved⟩
    rcases standing.step before with ⟨l, step⟩
    have here : (p.afterSteps (k + 1)).pc = (p.afterSteps k).pc := by
      rw [standing.pc before, standing.pc (Nat.le_of_lt before)]
    rw [← fetched] at call interrupt
    rcases (h.afterSteps k).steady_leaves step here call interrupt with ⟨memory', fetched', moved'⟩
    refine ⟨memory'.trans memory, fetched'.trans fetched, ?_⟩
    rw [moved', moved, fetched, UInt8.add_assoc, ← UInt8.ofNat_add, Nat.mul_succ]

theorem repeats_returnFromCall (operation : p.fetch.instruction.operation = .returnFromCall) (round : 128 ≤ n) :
    p.Repeats := by
  have bytes {k : Nat} (before : k < 128) :
      p.memory.peek (stackSlot (p.registers.sp + UInt8.ofNat (2 * k) + 1)) = (p.pc - 1).low ∧
        p.memory.peek (stackSlot (p.registers.sp + UInt8.ofNat (2 * k) + 2)) = (p.pc - 1).high := by
    have few : k ≤ n := by omega
    rcases standing.walk h (by simp [operation]) (by simp [operation]) few with ⟨memory, fetched, moved⟩
    have back : (p.afterSteps k).fetch.instruction.operation = .returnFromCall := by rw [fetched, operation]
    have found := ((h.afterSteps k).stands_returnFromCall_iff back).mp (standing k (by omega))
    rwa [memory, moved, operation, standing.pc few] at found
  simp only [Repeats, operation]
  intro v
  rcases exists_double (v - p.registers.sp - 1) with ⟨k, before, even | odd⟩
  · have slot : v = p.registers.sp + UInt8.ofNat (2 * k) + 1 := by grind
    rw [← Address.inSlot_add_double _ _ _ k, slot, (bytes before).1, Address.inSlot_add_one]
  · have slot : v = p.registers.sp + UInt8.ofNat (2 * k) + 2 := by grind
    rw [← Address.inSlot_add_double _ _ _ k, slot, (bytes before).2, Address.inSlot_two_above]

/-- Going back from interrupts for three rounds, all of the stack is seen in each place. -/
theorem repeats_returnFromInterrupt (operation : p.fetch.instruction.operation = .returnFromInterrupt)
    (rounds : 256 ≤ n) : p.Repeats := by
  have bytes {k : Nat} (before : k < 256) :
      p.memory.peek (stackSlot (p.registers.sp + UInt8.ofNat (3 * k) + 2)) = p.pc.low ∧
        p.memory.peek (stackSlot (p.registers.sp + UInt8.ofNat (3 * k) + 3)) = p.pc.high := by
    have few : k ≤ n := by omega
    rcases standing.walk h (by simp [operation]) (by simp [operation]) few with ⟨memory, fetched, moved⟩
    have back : (p.afterSteps k).fetch.instruction.operation = .returnFromInterrupt := by rw [fetched, operation]
    have found := ((h.afterSteps k).stands_returnFromInterrupt_iff back).mp (standing k (by omega))
    rwa [memory, moved, operation, standing.pc few] at found
  simp only [Repeats, operation]
  intro v
  constructor
  · rcases exists_triple (v - p.registers.sp - 2) with ⟨k, before, reached⟩
    have slot : v = p.registers.sp + UInt8.ofNat (3 * k) + 2 := by grind
    rw [slot, (bytes before).1]
  · rcases exists_triple (v - p.registers.sp - 3) with ⟨k, before, reached⟩
    have slot : v = p.registers.sp + UInt8.ofNat (3 * k) + 3 := by grind
    rw [slot, (bytes before).2]

theorem repeats_steady (call : p.fetch.instruction.operation ≠ .call)
    (interrupt : p.fetch.instruction.operation ≠ .softwareInterrupt) (rounds : 256 ≤ n) : p.Repeats := by
  have stands : p.Stands := standing 0 (by omega)
  rcases stands.operation with jump | branch | operation | operation | operation | operation
  · exact repeats_jump (.inl jump)
  · exact repeats_jump (.inr branch)
  · exact absurd operation call
  · exact standing.repeats_returnFromCall h operation (by omega)
  · exact absurd operation interrupt
  · exact standing.repeats_returnFromInterrupt h operation rounds

/-! ### Calls and software interrupts -/

theorem call_bytes {k i : Nat} (before : k < n) (operation : (p.afterSteps k).fetch.instruction.operation = .call)
    (few : i < 3) : (p.afterSteps k).memory.peek (p.pc + UInt16.ofNat i) = [0x20, p.pc.low, p.pc.high][i] := by
  have opcode := ((h.afterSteps k).call_row operation).1
  rcases ((h.afterSteps k).stands_call_iff operation).mp (standing k before) with ⟨low, high⟩
  rw [standing.pc (Nat.le_of_lt before)] at opcode low high
  match i with
  | 0 => rwa [show p.pc + UInt16.ofNat 0 = p.pc from UInt16.add_zero _]
  | 1 => exact low
  | 2 => exact high

/-- Calls for half a round push all over the stack. -/
theorem repeats_call (always : ∀ k < 129, (p.afterSteps k).fetch.instruction.operation = .call) (round : 129 ≤ n) :
    p.Repeats := by
  have moved {k : Nat} (before : k < 128) : (p.afterSteps k).registers.sp + UInt8.ofNat (2 * k) = p.registers.sp := by
    refine moved_of_down (f := fun k => (p.afterSteps k).registers.sp) fun i earlier => ?_
    rcases standing.step (show i < n by omega) with ⟨l, step⟩
    exact ((h.afterSteps i).call_leaves step (always i (by omega))).1
  have operation : p.fetch.instruction.operation = .call := always 0 (by decide)
  simp only [Repeats, operation]
  intro i few page
  -- The byte is the same behind each step, and one of them has pushed it.
  have slot := stackSlot_low page
  generalize (p.pc + UInt16.ofNat i).low = v at slot ⊢
  have pushed {k : Nat} (before : k < 128) : p.memory.peek (p.pc + UInt16.ofNat i) =
      if v = (p.afterSteps k).registers.sp then (p.pc + 2).high
      else if v = (p.afterSteps k).registers.sp - 1 then (p.pc + 2).low
      else (p.afterSteps k).memory.peek (stackSlot v) := by
    rcases standing.step (show k < n by omega) with ⟨l, step⟩
    have first := standing.call_bytes h (show 0 < n by omega) (always 0 (by decide)) few
    have behind := standing.call_bytes h (show k + 1 < n by omega) (always (k + 1) (by omega)) few
    have bytes := ((h.afterSteps k).call_leaves step (always k (by omega))).2.2 v
    rw [standing.pc (show k ≤ n by omega), slot] at bytes
    rw [slot, ← bytes]
    exact first.trans behind.symm
  rcases exists_double (p.registers.sp - v) with ⟨k, before, even | odd⟩
  · have reached := moved before
    have free : (p.afterSteps k).registers.sp = v := by grind
    rw [pushed before, if_pos free.symm, ← reached, Address.inSlot_add_double, free, Address.inSlot_self]
  · have reached := moved before
    have below : v = (p.afterSteps k).registers.sp - 1 := by grind
    have other : v ≠ (p.afterSteps k).registers.sp := by grind
    rw [pushed before, if_neg other, if_pos below, ← reached, Address.inSlot_add_double, below, Address.inSlot_sub_one]

theorem exists_not_interrupt (page : p.pc.high = 1) (rounds : 257 ≤ n) :
    ∃ k < 257, (p.afterSteps k).fetch.instruction.operation ≠ .softwareInterrupt := by
  by_contra always
  simp only [not_exists, not_and, not_not] at always
  rcases exists_triple (p.registers.sp - p.pc.low) with ⟨k, before, reached⟩
  have moved : (p.afterSteps k).registers.sp + UInt8.ofNat (3 * k) = p.registers.sp := by
    refine moved_of_down (f := fun k => (p.afterSteps k).registers.sp) fun i earlier => ?_
    rcases standing.step (show i < n by omega) with ⟨l, step⟩
    exact ((h.afterSteps i).softwareInterrupt_leaves step (always i (by omega))).1
  have free : p.pc.low = (p.afterSteps k).registers.sp := by grind
  rcases standing.step (show k < n by omega) with ⟨l, step⟩
  have pushed := ((h.afterSteps k).softwareInterrupt_leaves step (always k (by omega))).2.2 p.pc.low
  have opcode := (h.afterSteps (k + 1)).softwareInterrupt_row (always (k + 1) (by omega))
  rw [if_pos free, stackSlot_low page, standing.pc (show k ≤ n by omega)] at pushed
  rw [standing.pc (show k + 1 ≤ n by omega), pushed] at opcode
  rcases Address.high_add_two page with high | high
  · simp [high] at opcode
  · simp [high] at opcode

/-- No software interrupt on the page of the stack pushes a call of itself. -/
theorem interrupt_not_call (page : p.pc.high = 1) {k : Nat} (before : k + 1 < n)
    (interrupt : (p.afterSteps k).fetch.instruction.operation = .softwareInterrupt) :
    (p.afterSteps (k + 1)).fetch.instruction.operation ≠ .call := by
  intro call
  rcases standing.step (show k < n by omega) with ⟨l, step⟩
  have here := standing.pc (show k ≤ n by omega)
  have there := standing.pc (Nat.le_of_lt before)
  have pushed := ((h.afterSteps k).softwareInterrupt_leaves step interrupt).2.2
  have first := (h.afterSteps k).softwareInterrupt_row interrupt
  have opcode := ((h.afterSteps (k + 1)).call_row call).1
  have operand := (((h.afterSteps (k + 1)).stands_call_iff call).mp (standing (k + 1) before)).1
  simp only [here, there] at pushed first opcode operand
  have byte := pushed p.pc.low
  rw [stackSlot_low page, opcode] at byte
  split_ifs at byte with free next last
  · rcases Address.high_add_two page with high | high
    · simp [high] at byte
    · simp [high] at byte
  · -- The call is the low byte of its own return address, and so the high byte is its operand.
    have low : p.pc.low = 0x1E := by
      have sum : (p.pc + 2).low = p.pc.low + 2 := UInt16.toUInt8_add ..
      grind
    have place : p.pc = 0x011E := by
      rw [← Address.ofBytes_low_high p.pc, low, page]
      rfl
    have above : (p.afterSteps k).registers.sp = 0x1F := by grind
    have high := pushed 0x1F
    rw [above, if_pos rfl] at high
    rw [place] at operand high
    have same : (0x011E : Address) + 1 = stackSlot 0x1F := by decide
    rw [same, high] at operand
    exact absurd operand (by decide)
  · have told := congrArg (fun b => (Status.ofByte b).brk) byte
    rw [Status.ofByte_toByte] at told
    exact absurd told (by decide : false ≠ true)
  · rw [first] at byte
    exact absurd byte (by decide)

/-- Who pushes long enough repeats its step, or comes to a software interrupt that does. -/
theorem repeats_pushing (pushing : ∀ k < 512, (p.afterSteps k).fetch.instruction.operation = .call ∨
    (p.afterSteps k).fetch.instruction.operation = .softwareInterrupt) (rounds : 512 ≤ n) :
    ∃ k < 129, (p.afterSteps k).Repeats := by
  by_cases calls : ∀ k < 129, (p.afterSteps k).fetch.instruction.operation = .call
  · exact ⟨0, by decide, standing.repeats_call h calls (by omega)⟩
  simp only [not_forall] at calls
  rcases calls with ⟨k, before, other⟩
  have interrupt := (pushing k (by omega)).resolve_left other
  refine ⟨k, before, ?_⟩
  have here := standing.pc (show k ≤ n by omega)
  simp only [Repeats, interrupt, here]
  intro page
  -- From here on, there are software interrupts only, and one of them pushes over itself.
  have always {i : Nat} (near : i < 257) :
      (p.afterSteps (k + i)).fetch.instruction.operation = .softwareInterrupt := by
    induction i with
    | zero => exact interrupt
    | succ i ih =>
      have last := ih (by omega)
      exact (pushing (k + (i + 1)) (by omega)).resolve_left
        (standing.interrupt_not_call h page (by omega : k + i + 1 < n) last)
  have later : (p.afterSteps k).StandsFor 257 := standing.afterSteps (by omega)
  rcases later.exists_not_interrupt (h.afterSteps k) (by rw [here, page]) (Nat.le_refl 257) with ⟨i, near, ends⟩
  rw [← afterSteps_add] at ends
  exact ends (always near)

/-- **Who stands for 768 steps has come to a step that is repeated.** -/
theorem exists_repeats (rounds : 768 ≤ n) : ∃ k < 512, (p.afterSteps k).Repeats := by
  by_cases pushing : ∀ k < 512, (p.afterSteps k).fetch.instruction.operation = .call ∨
      (p.afterSteps k).fetch.instruction.operation = .softwareInterrupt
  · rcases standing.repeats_pushing h pushing (by omega) with ⟨k, before, again⟩
    exact ⟨k, by omega, again⟩
  · simp only [not_forall, not_or] at pushing
    rcases pushing with ⟨k, before, call, interrupt⟩
    have later : (p.afterSteps k).StandsFor 256 := standing.afterSteps (by omega)
    exact ⟨k, before, later.repeats_steady (h.afterSteps k) call interrupt (Nat.le_refl 256)⟩

end StandsFor

/-! ## What is halted -/

/-- **Who stands for ever comes to a step that is repeated**, and nobody else does. -/
theorem halted_iff (h : p.Plain) : p.Halted ↔ ∃ k < 512, p.StandsFor (k + 1) ∧ (p.afterSteps k).Repeats := by
  constructor
  · intro halted
    rcases (halted.standsFor 768).exists_repeats h (Nat.le_refl 768) with ⟨k, before, again⟩
    exact ⟨k, before, halted.standsFor (k + 1), again⟩
  · rintro ⟨k, -, standing, again⟩
    have before : p.StandsFor k := fun i earlier => standing i (by omega)
    exact before.halted (again.halted (h.afterSteps k) (standing k (Nat.lt_succ_self k)))

/-- **Who stands for 768 steps stands for ever.** -/
theorem halted_iff_standsFor (h : p.Plain) : p.Halted ↔ p.StandsFor 768 := by
  constructor
  · intro halted
    exact halted.standsFor 768
  · intro standing
    rcases standing.exists_repeats h (Nat.le_refl 768) with ⟨k, before, again⟩
    have some : p.StandsFor (k + 1) := fun i earlier => standing i (by omega)
    exact (halted_iff h).mpr ⟨k, before, some, again⟩

/-- **Without pushes, who stands is halted if its step is repeated**, and not otherwise. -/
theorem halted_iff_repeats (h : p.Plain) (stands : p.Stands) (call : p.fetch.instruction.operation ≠ .call)
    (interrupt : p.fetch.instruction.operation ≠ .softwareInterrupt) : p.Halted ↔ p.Repeats := by
  constructor
  · intro halted
    exact (halted.standsFor 256).repeats_steady h call interrupt (Nat.le_refl 256)
  · intro again
    exact again.halted h stands

end Processor

end Atari
