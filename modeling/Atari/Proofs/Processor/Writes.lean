import Atari.Proofs.Processor.Breakpoints
import Atari.Proofs.Processor.Failure
import Atari.Proofs.Words

/-!
# What a step stores

An instruction stores at most one byte, at the location of its operand, or up to three on the stack.
After that it changes registers, and last the command pointer is written once.

* `Decoded.writes`: the bytes that an instruction stores, in order;
* `Processor.Follows`: a processor that has stored some bytes and may have changed its registers;
* **`Decoded.execute_executed`**: what an instruction that succeeds has done;
* **`Processor.step_cases`**: what a step that succeeds has done; `Processor.step_sameBus`: what it has
  done on the bus.
-/

namespace Atari

namespace Processor

variable {p q r : Processor} {writes : List (Address × Byte)}

def OnStack (a : Address) : Prop := ∃ sp, a = stackSlot sp

/-- The stores that push bytes, the first one with the given stack pointer. -/
def pushes (sp : Byte) : List Byte → List (Address × Byte)
  | [] => []
  | v :: data => (stackSlot sp, v) :: pushes (sp - 1) data

theorem onStack_of_mem_pushes {sp : Byte} {data : List Byte} {w : Address × Byte}
    (h : w ∈ pushes sp data) : OnStack w.1 := by
  induction data generalizing sp with
  | nil => cases h
  | cons v data ih =>
    cases h with
    | head => exact ⟨sp, rfl⟩
    | tail _ h => exact ih h

/-- The processor `q` comes from `p` by storing bytes and then changing registers and records. -/
structure Follows (p q : Processor) (writes : List (Address × Byte)) : Prop where
  name : q.name = p.name
  table : q.table = p.table
  onA : q.onA = p.onA
  onX : q.onX = p.onX
  onY : q.onY = p.onY
  breakpoints : q.breakpoints = p.breakpoints
  board : (p.board.storeList writes).Told q.board

namespace Follows

theorem refl (p : Processor) : p.Follows p [] := ⟨rfl, rfl, rfl, rfl, rfl, rfl, .refl _⟩

theorem trans (h : p.Follows q writes) (k : q.Follows r []) : p.Follows r writes where
  name := k.name.trans h.name
  table := k.table.trans h.table
  onA := k.onA.trans h.onA
  onX := k.onX.trans h.onX
  onY := k.onY.trans h.onY
  breakpoints := k.breakpoints.trans h.breakpoints
  board := h.board.trans k.board

theorem withRegisters (h : p.Follows q writes) (registers : Registers) :
    p.Follows { q with registers := registers } writes :=
  ⟨h.name, h.table, h.onA, h.onX, h.onY, h.breakpoints, h.board⟩

theorem note (h : p.Follows q writes) (level : Level) (body : Unit → String) :
    p.Follows (q.onBoard (·.note level body)) writes :=
  ⟨h.name, h.table, h.onA, h.onX, h.onY, h.breakpoints, h.board.trans (.note ..)⟩

theorem setRegister (h : p.Follows q writes) (register : Register) (v : Byte) :
    p.Follows (q.setRegister register v) writes := by
  have observed (labels : List String) (b : Board) :
      b.Told (labels.foldl (fun b l => b.record (.observed l v)) b) := by
    induction labels generalizing b with
    | nil => exact .refl b
    | cons l labels ih => exact (Board.Told.record ..).trans (ih _)
  cases register with
  | a | x | y =>
    exact ⟨h.name, h.table, h.onA, h.onX, h.onY, h.breakpoints, h.board.trans (observed ..)⟩

end Follows

/-! ## Parts of instructions -/

theorem addBinary_follows (p : Processor) (v : Byte) : p.Follows (p.addBinary v) [] :=
  (((((Follows.refl p).setRegister .a _).withRegisters _).withRegisters _).withRegisters
    _).withRegisters _

theorem setDecimal_follows (p : Processor) (result : Byte) (carry : Bool) :
    p.Follows (p.setDecimal result carry) [] :=
  (((((Follows.refl p).setRegister .a _).withRegisters _).withRegisters _).withRegisters
    _).withRegisters _

theorem add_follows (p : Processor) (v : Byte) : p.Follows (p.add v) [] := by
  unfold add
  split
  · exact setDecimal_follows ..
  · exact addBinary_follows ..

theorem subtract_follows (p : Processor) (v : Byte) : p.Follows (p.subtract v) [] := by
  unfold subtract
  split
  · exact setDecimal_follows ..
  · exact addBinary_follows ..

theorem load_follows (p : Processor) (register : Register) (v : Byte) :
    p.Follows (p.load register v) [] :=
  (((Follows.refl p).setRegister register v).withRegisters _).withRegisters _

theorem shiftOut_follows (p : Processor) (c : Change) (v : Byte) : p.Follows (p.shiftOut c v) [] := by
  unfold shiftOut
  split
  · exact (Follows.refl p).withRegisters _
  · exact .refl p

theorem push_follows (p : Processor) (v : Byte) :
    p.Follows (p.push v) [(stackSlot p.registers.sp, v)] := by
  cases p
  exact ⟨rfl, rfl, rfl, rfl, rfl, rfl, .refl _⟩

theorem pushAddress_follows (p : Processor) (a : Address) :
    p.Follows (p.pushAddress a) (pushes p.registers.sp [a.high, a.low]) := by
  cases p
  exact ⟨rfl, rfl, rfl, rfl, rfl, rfl, .refl _⟩

/-! ## Interrupts -/

section Interrupts

variable (p : Processor) (returnAddress : Address) (brk : Bool) (vector : Address)

/-- The stores of an interrupt. -/
def interruptWrites : List (Address × Byte) :=
  pushes p.registers.sp
    [returnAddress.high, returnAddress.low, (p.registers.status.set .brk brk).toByte]

/-- The processor behind the stores of an interrupt. -/
def pushed : Processor :=
  let p := (p.pushAddress returnAddress).setFlag .brk brk
  (p.push p.registers.status.toByte).setFlag .interrupt true

/-- Where an interrupt goes on: its vector is read behind the stores. -/
def interruptTarget : Address := (p.pushed returnAddress brk).memory.pointer vector false

/-- What an interrupt writes into the log. -/
def interruptNote : String :=
  (p.pushed returnAddress brk).name ++ ": interrupt from " ++ returnAddress.text ++ " to " ++
    (p.interruptTarget returnAddress brk vector).text ++ " (vector " ++ vector.listed ++ ")"

theorem enterInterrupt_eq : p.enterInterrupt returnAddress brk vector =
    ((p.pushed returnAddress brk).onBoard (·.note .debug fun _ =>
      p.interruptNote returnAddress brk vector)).setPc (p.interruptTarget returnAddress brk vector) :=
  rfl

theorem pushed_follows :
    p.Follows (p.pushed returnAddress brk) (p.interruptWrites returnAddress brk) := by
  cases p
  exact ⟨rfl, rfl, rfl, rfl, rfl, rfl, .refl _⟩

/-- **An interrupt** stores the return address and the status, and then goes on at an address. -/
theorem enterInterrupt_cases :
    ∃ r a, p.Follows r (p.interruptWrites returnAddress brk) ∧
      p.enterInterrupt returnAddress brk vector = r.setPc a :=
  ⟨_, _, (p.pushed_follows returnAddress brk).note .., p.enterInterrupt_eq returnAddress brk vector⟩

end Interrupts

end Processor

/-! ## Instructions -/

namespace Decoded

open Processor Execution

/-- The bytes that an instruction stores. -/
def writes (d : Decoded) (p : Processor) : List (Address × Byte) :=
  match d.instruction.operation with
  | .store register => inMemory fun _ => p.register register
  | .change c =>
    if d.mode = .accumulator then [] else inMemory fun v => c.apply (p.flag .carry) v
  | .call => pushes p.registers.sp [(d.address + 2).high, (d.address + 2).low]
  | .softwareInterrupt => p.interruptWrites (d.address + 2) true
  | .pushAccumulator => pushes p.registers.sp [p.registers.a]
  | .pushStatus => pushes p.registers.sp [{ p.registers.status with brk := true }.toByte]
  | _ => []
where
  /-- The new byte at the location of the operand, if it has one. -/
  inMemory (new : Byte → Byte) : List (Address × Byte) :=
    match d.mode.address p.registers p.memory d.operand with
    | .ok a => [(a, new (p.memory.peek a))]
    | .error _ => []

/-- What an instruction has done that stored some bytes. It may have written the command pointer last,
but only if it stored them on the stack. -/
inductive Executed (p : Processor) (writes : List (Address × Byte)) : Flow → Processor → Prop
  | next {r : Processor} : p.Follows r writes → Executed p writes .next r
  | jumped {r : Processor} {a : Address} : p.Follows r writes → (∀ w ∈ writes, OnStack w.1) →
      Executed p writes .jumped (r.setPc a)

variable {d : Decoded} {p q : Processor} {flow : Flow}

theorem value_ok {v : Byte} (h : d.value p = .ok v q) : q = p := by
  obtain ⟨_, hv, -⟩ | ⟨_, he, -⟩ := d.value_reads p p (.refl p)
  · rw [hv] at h
    cases h
    rfl
  · rw [he] at h
    cases h

theorem target_ok {a : Address} (h : d.target p = .ok a q) :
    q = p ∧ d.mode.address p.registers p.memory d.operand = .ok a := by
  unfold target at h
  split at h
  · rename_i ha
    cases h
    exact ⟨rfl, ha⟩
  · cases h

theorem executed_proceed {writes : List (Address × Byte)} {change : Processor → Processor}
    (hc : p.Follows (change p) writes) (h : proceed change p = .ok flow q) :
    Executed p writes flow q := by
  cases h
  exact .next hc

theorem executed_goTo {a : Address} (h : goTo a p = .ok flow q) : Executed p [] flow q := by
  cases h
  exact .jumped (.refl p) fun _ hw => nomatch hw

theorem executed_value {change : Byte → Processor → Processor} (hc : ∀ v, p.Follows (change v p) [])
    (h : (d.value >>= fun v => proceed (change v)) p = .ok flow q) : Executed p [] flow q := by
  obtain ⟨v, r, hv, h⟩ := bind_ok h
  rw [value_ok hv] at h
  exact executed_proceed (hc v) h

theorem executed_target {new : Byte → Byte} {change : Address → Processor → Processor}
    (hc : ∀ a, p.Follows (change a p) [(a, new (p.memory.peek a))])
    (h : (d.target >>= fun a => proceed (change a)) p = .ok flow q) :
    Executed p (writes.inMemory d p new) flow q := by
  obtain ⟨a, r, ha, h⟩ := bind_ok h
  rw [(target_ok ha).1] at h
  unfold writes.inMemory
  rw [(target_ok ha).2]
  exact executed_proceed (hc a) h

theorem executed_jump (h : (d.target >>= goTo) p = .ok flow q) : Executed p [] flow q := by
  obtain ⟨a, r, ha, h⟩ := bind_ok h
  rw [(target_ok ha).1] at h
  exact executed_goTo h

theorem executed_changeInPlace {c : Change} (h : d.changeInPlace c p = .ok flow q) :
    Executed p
      (if d.mode = .accumulator then [] else writes.inMemory d p fun v => c.apply (p.flag .carry) v)
      flow q := by
  unfold changeInPlace at h
  by_cases hm : d.mode = .accumulator
  · rw [if_pos hm] at h ⊢
    exact executed_proceed ((shiftOut_follows ..).trans (load_follows ..)) h
  · rw [if_neg hm] at h ⊢
    refine executed_target (fun a => ?_) h
    -- The carry that moves out is written before the byte is stored.
    unfold shiftOut
    dsimp only
    split
    · exact ⟨rfl, rfl, rfl, rfl, rfl, rfl, .refl _⟩
    · exact ⟨rfl, rfl, rfl, rfl, rfl, rfl, .refl _⟩

theorem pullAddress_follows (p : Processor) : p.Follows p.pullAddress.2 [] :=
  ((Follows.refl p).withRegisters _).withRegisters _

/-- **What an instruction that succeeds has done.** -/
theorem execute_executed (h : d.execute p = .ok flow q) : Executed p (d.writes p) flow q := by
  unfold execute at h
  unfold writes
  cases hop : d.instruction.operation <;> rw [hop] at h <;> dsimp only at h ⊢
  case load | logic => exact executed_value (fun v => load_follows ..) h
  case add => exact executed_value (fun v => add_follows ..) h
  case subtract => exact executed_value (fun v => subtract_follows ..) h
  case compare | bitTest =>
    exact executed_value
      (fun v => (((Follows.refl p).withRegisters _).withRegisters _).withRegisters _) h
  case store => exact executed_target (fun a => ⟨rfl, rfl, rfl, rfl, rfl, rfl, .refl _⟩) h
  case change => exact executed_changeInPlace h
  case transfer | loadStackPointer | increment | decrement =>
    exact executed_proceed (load_follows ..) h
  case setStackPointer | setFlag => exact executed_proceed ((Follows.refl p).withRegisters _) h
  case branch f v =>
    rw [branch_run] at h
    by_cases taken : p.flag f = v
    · rw [if_pos taken] at h
      exact executed_jump h
    · rw [if_neg taken] at h
      exact executed_proceed (.refl p) h
  case jump => exact executed_jump h
  case call =>
    obtain ⟨a, r, ha, h⟩ := bind_ok h
    rw [(target_ok ha).1] at h
    cases h
    exact .jumped (pushAddress_follows ..) fun w hw => onStack_of_mem_pushes hw
  case returnFromCall =>
    cases h
    exact .jumped (pullAddress_follows p) fun w hw => nomatch hw
  case softwareInterrupt =>
    obtain ⟨r, a, hr, he⟩ := enterInterrupt_cases p (d.address + 2) true interruptVector
    cases h
    rw [he]
    exact .jumped hr fun w hw => onStack_of_mem_pushes hw
  case returnFromInterrupt =>
    cases h
    exact .jumped (((Follows.refl p).withRegisters _).trans
      (((Follows.refl _).withRegisters _).trans (pullAddress_follows _))) fun w hw => nomatch hw
  case pushAccumulator | pushStatus => exact executed_proceed (push_follows ..) h
  case pullAccumulator =>
    exact executed_proceed (((Follows.refl p).withRegisters _).trans (load_follows ..)) h
  case pullStatus =>
    exact executed_proceed (((Follows.refl p).withRegisters _).withRegisters _) h
  case nothing => exact executed_proceed (.refl p) h
  case undefined => cases h

/-- An instruction stores one byte at most, unless it stores on the stack. -/
theorem writes_cases (d : Decoded) (p : Processor) :
    (∀ w ∈ d.writes p, OnStack w.1) ∨ ∃ w, d.writes p = [w] := by
  have inMemory (new : Byte → Byte) : (∀ w ∈ writes.inMemory d p new, OnStack w.1) ∨
      ∃ w, writes.inMemory d p new = [w] := by
    unfold writes.inMemory
    split
    · exact .inr ⟨_, rfl⟩
    · exact .inl fun w hw => nomatch hw
  unfold writes
  split
  · exact inMemory _
  · split
    · exact .inl fun w hw => nomatch hw
    · exact inMemory _
  · exact .inl fun w hw => onStack_of_mem_pushes hw
  · exact .inl fun w hw => onStack_of_mem_pushes hw
  · exact .inl fun w hw => onStack_of_mem_pushes hw
  · exact .inl fun w hw => onStack_of_mem_pushes hw
  · exact .inl fun w hw => nomatch hw

end Decoded

/-! ## Steps -/

namespace Processor

open Decoded

variable {p q : Processor} {l : LogLine}

theorem width_lt (mode : AddressingMode) : mode.width < 3 := by
  cases mode <;> decide

/-- **What a step that succeeds has done**: it has stored bytes, has then written the command pointer
once, and has left a line. An instruction that does not move the command pointer stores on the stack
alone. -/
theorem step_cases (h : p.step = .ok l q) :
    ∃ r a, p.Follows r (p.fetch.writes p) ∧ q = (r.setPc a).trace l ∧
      (a = p.pc → ∀ w ∈ p.fetch.writes p, OnStack w.1) := by
  unfold step at h
  dsimp only at h
  cases hx : p.fetch.execute p with
  | error e r =>
    rw [hx] at h
    cases h
  | ok flow r =>
    rw [hx] at h
    dsimp only at h
    cases execute_executed hx with
    | @jumped r a follows stack =>
      cases h
      exact ⟨r, a, follows, rfl, fun _ => stack⟩
    | next follows =>
      cases h
      refine ⟨r, _, follows, rfl, fun moved => ?_⟩
      -- The next instruction starts one to three bytes behind this one.
      have width := width_lt p.fetch.mode
      exact absurd moved (Address.add_ofNat_ne_self (by omega) (by omega) p.pc)

theorem step_sameBus (h : p.step = .ok l q) :
    (p.board.storeList (p.fetch.writes p)).SameBus q.board := by
  obtain ⟨r, a, follows, rfl, -⟩ := step_cases h
  have traced : (r.setPc a).board.SameBus ((r.setPc a).trace l).board :=
    (Board.Told.note (r.setPc a).board .trace fun _ => l.text).sameBus
  exact (follows.board.sameBus.trans (r.sameBus_setPc a)).trans traced

end Processor

end Atari
