import Atari.Proofs.Processor.BreakFlag
import Atari.Proofs.Processor.Targets

/-!
# The unused bit

Bit five of the status has no use and reads as one. A status that is written as a whole has it set, and what
changes single flags leaves it as it is. So it stays set, whatever is done to the processor, and it is set in
every status that lies on the stack.

* `Processor.Demand`: what is done to a processor from outside; `Processor.obey`, `Processor.obeyAll`: what
  comes of one of them and of several;
* `Processor.pushedBrk?`: whether a status is pushed, and with which `B`;
* **`Processor.obeyAll_unused`**: bit five is set behind all of them, and in each status that they push.
-/

namespace Atari

namespace Status

theorem hasMask_unused (s : Status) : s.hasMask 0x20 = s.unused := by
  rcases s with ⟨n, v, u, b, d, i, z, c⟩
  revert n v u b d i z c
  decide

theorem toByte_unused {s : Status} (h : s.unused = true) : s.toByte &&& 0x20 = 0x20 :=
  beq_iff_eq.mp (s.hasMask_unused.trans h)

end Status

/-! ## Instructions -/

namespace Decoded

open Processor Execution

variable {d : Decoded} {p q : Processor} {flow : Flow}

theorem wholeStatus_cases {operation : Operation} {mode : AddressingMode}
    (whole : (operation.footprint mode).wholeStatus = true) :
    operation = .pullStatus ∨ operation = .returnFromInterrupt := by
  cases operation with
  | pullStatus => exact .inl rfl
  | returnFromInterrupt => exact .inr rfl
  | _ => cases whole

/-- **An instruction leaves bit five set.** -/
theorem execute_unused (h : d.execute p = .ok flow q) (set : p.registers.status.unused = true) :
    q.registers.status.unused = true := by
  cases whole : (d.instruction.operation.footprint d.mode).wholeStatus with
  | false => exact ((execute_confined h).unused whole).trans set
  | true =>
    -- What is pulled is a written status, in which bit five is hardwired.
    unfold execute at h
    obtain pull | back := wholeStatus_cases whole
    · rw [pull] at h
      cases h
      rfl
    · rw [back] at h
      exact goTo_gives (P := fun q => q.registers.status.unused = true) h (by rw [setPc_registers]; rfl)

end Decoded

/-! ## Demands -/

namespace Processor

/-- What is done to a processor from outside. -/
inductive Demand
  | signal (s : Signal)
  | setStatus (v : Byte)
  | push (v : Byte)
  | pull
  | setRegister (r : Register) (v : Byte)
  | setStackPointer (v : Byte)
  /-- The command pointer is written. -/
  | jump (a : Address)
  deriving DecidableEq, Repr

variable {p q : Processor}

/-- What comes of a demand, and the processor behind it. -/
def obey (p : Processor) : Demand → Answer × Processor
  | .signal s => p.receive s
  | .setStatus v => (.ok [], p.setStatus v)
  | .push v => (.ok [(stackSlot p.registers.sp, v)], p.push v)
  | .pull => (.ok [], p.pull.2)
  | .setRegister r v => (.ok [], p.setRegister r v)
  | .setStackPointer v => (.ok [], p.setSp v)
  | .jump a => (.ok [], p.setPc a)

/-- The processor behind several demands. A demand that fails does not end them. -/
def obeyAll (p : Processor) (demands : List Demand) : Processor :=
  demands.foldl (fun p c => (p.obey c).2) p

theorem obey_table (p : Processor) (c : Demand) : (p.obey c).2.table = p.table := by
  cases c with
  | signal s => exact p.receive_table s
  | setRegister r v => exact ((Follows.refl p).setRegister r v).table
  | jump a => exact setPc_table ..
  | setStatus | push | pull | setStackPointer => rfl

/-- On the bus, a demand has stored the bytes that its answer tells, and has done nothing else. -/
theorem obey_sameBus {c : Demand} {writes : List (Address × Byte)} (h : p.obey c = (.ok writes, q)) :
    (p.board.storeList writes).SameBus q.board := by
  cases c with
  | signal s => exact receive_sameBus h
  | setRegister r v =>
    cases h
    exact ((Follows.refl p).setRegister r v).board.sameBus
  | jump a =>
    cases h
    exact p.sameBus_setPc a
  | setStatus | push | pull | setStackPointer =>
    cases h
    exact .refl _

/-! ### Bit five -/

theorem exists_execute {l : LogLine} (h : p.step = .ok l q) :
    ∃ flow r, p.fetch.execute p = .ok flow r ∧ finish p.fetch flow r = .ok l q := by
  cases run : p.fetch.execute p with
  | ok flow r => exact ⟨flow, r, rfl, (step_of_ok run).symm.trans h⟩
  | error e r => cases (step_of_error run).symm.trans h

theorem step_unused {l : LogLine} (h : p.step = .ok l q) (set : p.registers.status.unused = true) :
    q.registers.status.unused = true := by
  obtain ⟨flow, r, run, finished⟩ := exists_execute h
  rw [(finish_kept finished).1]
  exact Decoded.execute_unused run set

theorem enterInterrupt_unused (returnAddress : Address) (brk : Bool) (vector : Address)
    (set : p.registers.status.unused = true) :
    (p.enterInterrupt returnAddress brk vector).registers.status.unused = true := by
  rw [enterInterrupt_registers]
  exact set

/-- **A demand leaves bit five set.** -/
theorem obey_unused (c : Demand) (set : p.registers.status.unused = true) :
    (p.obey c).2.registers.status.unused = true := by
  cases c with
  | signal s =>
    cases s with
    | step =>
      show (p.receive .step).2.registers.status.unused = true
      rw [receive]
      cases run : p.step with
      | ok l q => exact step_unused run set
      | error e q =>
        rw [eq_of_step_error run]
        exact set
    | interrupt | nonMaskableInterrupt => exact enterInterrupt_unused _ _ _ set
    | reset =>
      show p.reset.registers.status.unused = true
      unfold reset
      dsimp only
      rw [setPc_registers]
      rfl
  | setRegister r v =>
    show (p.setRegister r v).registers.status.unused = true
    rw [status_setRegister]
    exact set
  | jump a =>
    show (p.setPc a).registers.status.unused = true
    rw [setPc_registers]
    exact set
  | setStatus v => rfl
  | push | pull | setStackPointer => exact set

/-! ### Statuses on the stack -/

/-- The `B` of the status that a demand pushes, if it pushes one. -/
def pushedBrk? (p : Processor) : Demand → Option Bool
  | .signal .step => if p.fetch.instruction.mnemonic ∈ ["BRK", "PHP"] then some true else none
  | .signal .interrupt => some true
  | .signal .nonMaskableInterrupt => some false
  | _ => none

theorem operation_of_mnemonic (nmos : p.table = .nmos)
    (h : p.fetch.instruction.mnemonic ∈ ["BRK", "PHP"]) :
    p.fetch.instruction.operation = .softwareInterrupt ∨ p.fetch.instruction.operation = .pushStatus := by
  have checked : Instruction.documented.all fun i =>
      i.mnemonic ∈ ["BRK", "PHP"] → i.operation = .softwareInterrupt ∨ i.operation = .pushStatus := by
    decide +kernel
  replace h : (p.table.get (p.memory.peek p.pc)).mnemonic ∈ ["BRK", "PHP"] := h
  show (p.table.get (p.memory.peek p.pc)).operation = _ ∨ (p.table.get (p.memory.peek p.pc)).operation = _
  rw [nmos, InstructionSet.get] at h ⊢
  cases found : InstructionSet.nmos.get? (p.memory.peek p.pc) with
  | none =>
    rw [found] at h
    exact absurd h (by decide)
  | some i =>
    rw [found] at h
    exact of_decide_eq_true (List.all_eq_true.mp checked i (InstructionSet.mem_of_get?_ofList found)) h

/-- The stores end with the status of `p`, with the given `B`, on top of the stack of `q`. -/
def PushedLast (p : Processor) (brk : Bool) (stores : List (Address × Byte)) (q : Processor) : Prop :=
  stores.getLast? = some (stackSlot (q.registers.sp + 1), (p.registers.status.set .brk brk).toByte)

theorem pushedLast_enterInterrupt (p : Processor) (returnAddress : Address) (brk : Bool)
    (vector : Address) :
    p.PushedLast brk (p.interruptWrites returnAddress brk)
      (p.enterInterrupt returnAddress brk vector) := by
  rw [PushedLast, enterInterrupt_sp, UInt8.sub_add_cancel]
  rfl

/-- `BRK` and `PHP` do not fail, and push the status last. -/
theorem step_pushedLast
    (pushes : p.fetch.instruction.operation = .softwareInterrupt ∨
      p.fetch.instruction.operation = .pushStatus) :
    ∃ l q, p.step = .ok l q ∧ p.PushedLast true (p.fetch.writes p) q := by
  have executed : ∃ flow r, p.fetch.execute p = .ok flow r ∧ p.PushedLast true (p.fetch.writes p) r := by
    unfold Decoded.execute Decoded.writes
    obtain interrupts | status := pushes
    · rw [interrupts]
      exact ⟨_, _, rfl, p.pushedLast_enterInterrupt ..⟩
    · rw [status]
      refine ⟨_, _, rfl, ?_⟩
      show some (stackSlot p.registers.sp, _) = some (stackSlot (p.registers.sp - 1 + 1), _)
      rw [UInt8.sub_add_cancel]
      rfl
  obtain ⟨flow, r, run, last⟩ := executed
  obtain ⟨l, q, finished⟩ := finish_succeeds p.fetch flow r
  refine ⟨l, q, (step_of_ok run).trans finished, ?_⟩
  rw [PushedLast, (finish_kept finished).1]
  exact last

/-- **A demand that pushes a status does not fail**, and stores it last. -/
theorem obey_pushedLast (nmos : p.table = .nmos) {c : Demand} {brk : Bool}
    (pushes : p.pushedBrk? c = some brk) :
    ∃ stores q, p.obey c = (.ok stores, q) ∧ p.PushedLast brk stores q := by
  unfold pushedBrk? at pushes
  split at pushes
  · split at pushes
    · rename_i mnemonic
      cases pushes
      obtain ⟨l, q, run, last⟩ := step_pushedLast (operation_of_mnemonic nmos mnemonic)
      exact ⟨_, q, by rw [obey, receive, run], last⟩
    · cases pushes
  · cases pushes
    exact ⟨_, _, rfl, p.pushedLast_enterInterrupt ..⟩
  · cases pushes
    exact ⟨_, _, rfl, p.pushedLast_enterInterrupt ..⟩
  · cases pushes

/-! ### Runs -/

theorem obeyAll_keeps {P : Processor → Prop} (keeps : ∀ p c, P p → P (p.obey c).2) (h : P p)
    (demands : List Demand) : P (p.obeyAll demands) := by
  induction demands generalizing p with
  | nil => exact h
  | cons c demands ih => exact ih (keeps p c h)

/-- **Bit five stays set**, whatever is done to a processor that has it set. Each status that is pushed, by
`BRK`, `PHP` or an interrupt, has it set as well: it is the byte that is stored last, on top of the stack. -/
theorem obeyAll_unused (nmos : p.table = .nmos) (set : p.registers.status.hasMask 0x20 = true)
    (demands : List Demand) :
    (p.obeyAll demands).registers.status.hasMask 0x20 = true ∧
      ∀ c brk, (p.obeyAll demands).pushedBrk? c = some brk →
        ∃ stores q v, (p.obeyAll demands).obey c = (.ok stores, q) ∧
          stores.getLast? = some (stackSlot (q.registers.sp + 1), v) ∧
          v = ((p.obeyAll demands).registers.status.set .brk brk).toByte ∧ v &&& 0x20 = 0x20 ∧
          ((p.obeyAll demands).board.storeList stores).SameBus q.board := by
  have table : (p.obeyAll demands).table = .nmos :=
    obeyAll_keeps (P := fun p => p.table = .nmos) (fun p c h => (p.obey_table c).trans h) nmos demands
  have unused : (p.obeyAll demands).registers.status.unused = true :=
    obeyAll_keeps (P := fun p => p.registers.status.unused = true) (fun _ c => obey_unused c)
      ((Status.hasMask_unused _).symm.trans set) demands
  refine ⟨(Status.hasMask_unused _).trans unused, fun c brk pushes => ?_⟩
  obtain ⟨stores, q, used, last⟩ := obey_pushedLast table pushes
  exact ⟨stores, q, _, used, last, rfl, Status.toByte_unused ((Status.unused_set ..).trans unused),
    obey_sameBus used⟩

/-- A status is written without bit five, and an interrupt comes. -/
theorem obeyAll_unused_interrupt :
    ((beforeStatus true).obeyAll [.setStatus 0x00]).registers.status.hasMask 0x20 = true ∧
      ∃ stores q,
        ((beforeStatus true).obeyAll [.setStatus 0x00]).obey (.signal .interrupt) = (.ok stores, q) ∧
        stores.getLast? = some (stackSlot (q.registers.sp + 1), 0x30) := by
  obtain ⟨set, pushed⟩ := obeyAll_unused (p := beforeStatus true) rfl (by decide) [.setStatus 0x00]
  obtain ⟨stores, q, v, used, last, rfl, -⟩ := pushed (.signal .interrupt) true rfl
  exact ⟨set, stores, q, used, last⟩

end Processor

end Atari
