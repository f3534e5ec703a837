import Atari.Proofs.Processor.Documented

/-!
# The break flag

`B` is written when an interrupt is entered and when a status is pulled, and what is pushed has a `B` of its
own. No documented instruction looks at it. So processors that differ in `B` go on in the same way.

* `Status.SameButBrk`, `Registers.SameButBrk`, `Processor.SameButBrk`: what differs in `B` at most;
* `Operation.looksAtBrk`: whether an operation looks at `B`; `Decoded.execute_agree`: all others agree;
* `Signal`: what makes a processor go on; `Processor.receive`, `Processor.drive`: what comes of one signal
  and of several;
* **`Processor.drive_sameButBrk`**: the same comes of all signals, whatever `B` is.
-/

namespace Atari

/-! ## Statuses and registers -/

/-- Statuses that differ in `B` at most. -/
def Status.SameButBrk (s t : Status) : Prop := t = { s with brk := t.brk }

namespace Status.SameButBrk

variable {s t : Status} (h : s.SameButBrk t)

include h

theorem get {f : Flag} (other : f ≠ .brk) : t.get f = s.get f := by
  rw [h]
  cases f with
  | brk => exact absurd rfl other
  | _ => rfl

theorem set (f : Flag) (v : Bool) : (s.set f v).SameButBrk (t.set f v) := by
  rw [h]
  cases f <;> rfl

theorem withBrk (v : Bool) : { t with brk := v } = { s with brk := v } := by
  rw [h]

end Status.SameButBrk

theorem Status.SameButBrk.refl (s : Status) : s.SameButBrk s := rfl

/-- Registers that differ in `B` at most. -/
structure Registers.SameButBrk (r s : Registers) : Prop where
  a : s.a = r.a
  x : s.x = r.x
  y : s.y = r.y
  sp : s.sp = r.sp
  pc : s.pc = r.pc
  status : r.status.SameButBrk s.status

theorem Registers.SameButBrk.refl (r : Registers) : r.SameButBrk r := ⟨rfl, rfl, rfl, rfl, rfl, rfl⟩

section Operands

variable {r s : Registers} (h : r.SameButBrk s) (mode : AddressingMode) (m : Memory) (operand : Address)

include h

theorem AddressingMode.evaluate_sameButBrk : mode.evaluate s m operand = mode.evaluate r m operand := by
  cases mode <;> simp [evaluate, h.a, h.x, h.y, h.pc]

theorem AddressingMode.value_sameButBrk : mode.value s m operand = mode.value r m operand := by
  unfold value
  rw [mode.evaluate_sameButBrk h]

theorem AddressingMode.address_sameButBrk : mode.address s m operand = mode.address r m operand := by
  unfold address
  rw [mode.evaluate_sameButBrk h]

end Operands

/-! ## Processors -/

namespace Processor

/-- Processors with the same table and the same bus, whose registers differ in `B` at most. Their names,
their watchers and their records may differ. -/
structure SameButBrk (p q : Processor) : Prop where
  table : q.table = p.table
  registers : p.registers.SameButBrk q.registers
  bus : p.board.SameBus q.board

namespace SameButBrk

variable {p q p' q' : Processor} (h : p.SameButBrk q)

include h

theorem memory : q.memory = p.memory := h.bus.memory

theorem flag {f : Flag} (other : f ≠ .brk) : q.flag f = p.flag f := h.registers.status.get other

theorem register (r : Register) : q.register r = p.register r := by
  cases r with
  | a => exact h.registers.a
  | x => exact h.registers.x
  | y => exact h.registers.y

theorem fetch_eq : q.fetch = p.fetch := by
  unfold fetch pc
  rw [h.registers.pc, h.memory, h.table]

/-! ### Parts of instructions -/

theorem withRegisters {r s : Registers} (k : r.SameButBrk s) :
    SameButBrk { p with registers := r } { q with registers := s } := ⟨h.table, k, h.bus⟩

theorem onBoard {f g : Board → Board} (hp : p.board.SameBus (f p.board)) (hq : q.board.SameBus (g q.board)) :
    (p.onBoard f).SameButBrk (q.onBoard g) := ⟨h.table, h.registers, (hp.symm.trans h.bus).trans hq⟩

theorem note (level level' : Level) (body body' : Unit → String) :
    (p.onBoard (·.note level body)).SameButBrk (q.onBoard (·.note level' body')) :=
  h.onBoard (Board.Told.note ..).sameBus (Board.Told.note ..).sameBus

theorem setSp (v : Byte) : (p.setSp v).SameButBrk (q.setSp v) :=
  h.withRegisters { h.registers with sp := rfl }

theorem setFlag (f : Flag) (v : Bool) : (p.setFlag f v).SameButBrk (q.setFlag f v) :=
  h.withRegisters { h.registers with status := h.registers.status.set f v }

theorem setStatus (v : Byte) : (p.setStatus v).SameButBrk (q.setStatus v) :=
  h.withRegisters { h.registers with status := .refl _ }

theorem setNZ (v : Byte) : (p.setNZ v).SameButBrk (q.setNZ v) :=
  (h.setFlag .negative _).setFlag .zero _

theorem setRegister (r : Register) (v : Byte) : (p.setRegister r v).SameButBrk (q.setRegister r v) := by
  have told (p : Processor) : p.board.SameBus (p.setRegister r v).board :=
    ((Follows.refl p).setRegister r v).board.sameBus
  have written : (p.setRegister r v).registers.SameButBrk (q.setRegister r v).registers := by
    cases r with
    | a => exact { h.registers with a := rfl }
    | x => exact { h.registers with x := rfl }
    | y => exact { h.registers with y := rfl }
  have table (p : Processor) : (p.setRegister r v).table = p.table :=
    ((Follows.refl p).setRegister r v).table
  exact ⟨by rw [table, table, h.table], written, ((told p).symm.trans h.bus).trans (told q)⟩

theorem setPc (a : Address) : (p.setPc a).SameButBrk (q.setPc a) := by
  have moved : (p.setPc a).registers.SameButBrk (q.setPc a).registers := by
    rw [setPc_registers, setPc_registers]
    exact { h.registers with pc := rfl }
  have table : (q.setPc a).table = (p.setPc a).table := by
    rw [setPc_table, setPc_table, h.table]
  exact ⟨table, moved, ((p.sameBus_setPc a).symm.trans h.bus).trans (q.sameBus_setPc a)⟩

theorem store (a : Address) (v : Byte) : (p.store a v).SameButBrk (q.store a v) :=
  ⟨h.table, h.registers, Board.indiscernible_sameBus.store h.bus a v⟩

theorem push (v : Byte) : (p.push v).SameButBrk (q.push v) := by
  have stored := h.store (stackSlot p.registers.sp) v
  unfold Processor.push
  dsimp only
  rw [h.registers.sp, stored.registers.sp]
  exact stored.setSp _

theorem pushAddress (a : Address) : (p.pushAddress a).SameButBrk (q.pushAddress a) :=
  (h.push _).push _

theorem top_eq : q.top = p.top := by
  rw [top, top, h.memory, h.registers.sp]

theorem drop : p.drop.SameButBrk q.drop := by
  unfold Processor.drop
  rw [h.registers.sp]
  exact h.setSp _

theorem pullAddress : q.pullAddress.1 = p.pullAddress.1 ∧ p.pullAddress.2.SameButBrk q.pullAddress.2 := by
  refine ⟨?_, h.drop.drop⟩
  show Address.ofBytes q.top q.drop.top = Address.ofBytes p.top p.drop.top
  rw [h.top_eq, h.drop.top_eq]

/-! ### Arithmetic -/

theorem load (r : Register) (v : Byte) : (p.load r v).SameButBrk (q.load r v) :=
  (h.setRegister r v).setNZ v

theorem addBinary (v : Byte) : (p.addBinary v).SameButBrk (q.addBinary v) := by
  unfold Processor.addBinary
  dsimp only
  rw [h.registers.a, h.flag (f := .carry) (by decide)]
  exact (((h.setRegister .a _).setFlag .carry _).setFlag .overflow _).setNZ _

theorem setDecimal (result : Byte) (carry : Bool) :
    (p.setDecimal result carry).SameButBrk (q.setDecimal result carry) :=
  ((((h.setRegister .a _).setFlag .carry _).setFlag .zero _).setFlag .negative _).setFlag .overflow _

theorem add (v : Byte) : (p.add v).SameButBrk (q.add v) := by
  unfold Processor.add addDecimal
  dsimp only
  rw [h.registers.a, h.flag (f := .carry) (by decide), h.flag (f := .decimal) (by decide)]
  split
  · exact h.setDecimal _ _
  · exact h.addBinary v

theorem subtract (v : Byte) : (p.subtract v).SameButBrk (q.subtract v) := by
  unfold Processor.subtract subtractDecimal
  dsimp only
  rw [h.registers.a, h.flag (f := .carry) (by decide), h.flag (f := .decimal) (by decide)]
  split
  · exact h.setDecimal _ _
  · exact h.addBinary _

theorem compare (r v : Byte) : (p.compare r v).SameButBrk (q.compare r v) :=
  (h.setFlag .carry _).setNZ _

theorem testBits (v : Byte) : (p.testBits v).SameButBrk (q.testBits v) := by
  unfold Processor.testBits
  dsimp only
  rw [h.registers.a]
  exact ((h.setFlag .zero _).setFlag .negative _).setFlag .overflow _

theorem shiftOut (c : Change) (v : Byte) : (p.shiftOut c v).SameButBrk (q.shiftOut c v) := by
  unfold Processor.shiftOut
  split
  · exact h.setFlag .carry _
  · exact h

/-! ### Interrupts -/

theorem pushed (a : Address) (brk : Bool) : (p.pushed a brk).SameButBrk (q.pushed a brk) := by
  have returns := h.pushAddress a
  have status : ((q.pushAddress a).setFlag .brk brk).registers.status =
      ((p.pushAddress a).setFlag .brk brk).registers.status := returns.registers.status.withBrk brk
  unfold Processor.pushed
  dsimp only
  rw [status]
  exact ((returns.setFlag .brk brk).push _).setFlag .interrupt true

theorem enterInterrupt (a : Address) (brk : Bool) (vector : Address) :
    (p.enterInterrupt a brk vector).SameButBrk (q.enterInterrupt a brk vector) := by
  have pushed := h.pushed a brk
  have target : q.interruptTarget a brk vector = p.interruptTarget a brk vector := by
    rw [interruptTarget, interruptTarget, pushed.memory]
  rw [enterInterrupt_eq, enterInterrupt_eq, target]
  exact (pushed.note ..).setPc _

theorem interruptWrites_eq (a : Address) (brk : Bool) :
    q.interruptWrites a brk = p.interruptWrites a brk := by
  have status : q.registers.status.set .brk brk = p.registers.status.set .brk brk :=
    h.registers.status.withBrk brk
  unfold interruptWrites
  rw [h.registers.sp, status]

theorem reset : p.reset.SameButBrk q.reset := by
  unfold Processor.reset
  dsimp only
  rw [h.memory]
  have started := h.withRegisters (.refl (.initial (p.memory.pointer resetVector false)))
  exact (((started.setRegister .a 0).setRegister .x 0).setRegister .y 0).setPc _

end SameButBrk

end Processor

/-! ## Instructions -/

/-- The same fault on a processor with the given name. -/
def Fault.renamed (name : String) : Fault → Fault
  | resolution e => resolution e
  | invalidInstruction opcode address _ => invalidInstruction opcode address name

/-- The same result, or the same fault on processors with their own names, and processors that differ in
`B` at most. -/
inductive Agree {α : Type} :
    EStateM.Result Fault Processor α → EStateM.Result Fault Processor α → Prop
  | ok {v : α} {p q : Processor} : p.SameButBrk q → Agree (.ok v p) (.ok v q)
  | error {e f : Fault} {p q : Processor} : f = e.renamed q.name → p.SameButBrk q →
    Agree (.error e p) (.error f q)

/-- Whether an operation looks at `B`. -/
def Operation.looksAtBrk : Operation → Bool
  | branch f _ => f = .brk
  | _ => false

namespace Decoded

open Processor Execution

variable {d : Decoded} {p q : Processor} (h : p.SameButBrk q)

theorem agree_bind {α β : Type} {x : Execution α} {f : α → Execution β} (hx : Agree (x p) (x q))
    (hf : ∀ v p q, p.SameButBrk q → Agree (f v p) (f v q)) : Agree ((x >>= f) p) ((x >>= f) q) := by
  generalize hp : x p = xp at hx
  generalize hq : x q = xq at hx
  cases hx with
  | ok h =>
    rw [bind_of_ok hp, bind_of_ok hq]
    exact hf _ _ _ h
  | error named h =>
    rw [bind_of_error hp, bind_of_error hq]
    exact .error named h

include h

theorem value_agree : Agree (d.value p) (d.value q) := by
  unfold value
  rw [h.memory, d.mode.value_sameButBrk h.registers]
  split
  · exact .ok h
  · exact .error rfl h

theorem target_agree : Agree (d.target p) (d.target q) := by
  unfold target
  rw [h.memory, d.mode.address_sameButBrk h.registers]
  split
  · exact .ok h
  · exact .error rfl h

omit h

theorem proceed_agree {f : Processor → Processor} (hf : (f p).SameButBrk (f q)) :
    Agree (proceed f p) (proceed f q) := .ok hf

include h

theorem goTo_agree (a : Address) : Agree (goTo a p) (goTo a q) := .ok (h.setPc a)

theorem changeInPlace_agree (c : Change) : Agree (d.changeInPlace c p) (d.changeInPlace c q) := by
  have carry {p q : Processor} (h : p.SameButBrk q) : q.flag .carry = p.flag .carry := h.flag (by decide)
  unfold changeInPlace
  split
  · refine proceed_agree ?_
    dsimp only
    rw [h.registers.a, carry h]
    exact (h.shiftOut c _).load .a _
  · refine agree_bind (target_agree h) fun a p q h => proceed_agree ?_
    dsimp only
    rw [h.memory, carry h]
    exact ((h.shiftOut c _).store a _).setNZ _

theorem branch_agree {f : Flag} (other : f ≠ .brk) (v : Bool) :
    Agree ((do if (← get).flag f = v then goTo (← d.target) else proceed id : Execution Flow) p)
      ((do if (← get).flag f = v then goTo (← d.target) else proceed id : Execution Flow) q) := by
  rw [branch_run, branch_run, h.flag other]
  split
  · exact agree_bind (target_agree h) fun a p q h => goTo_agree h a
  · exact proceed_agree h

/-- **An operation that does not look at `B` agrees**, whatever `B` is. -/
theorem execute_agree (blind : d.instruction.operation.looksAtBrk = false) :
    Agree (d.execute p) (d.execute q) := by
  unfold execute
  cases hop : d.instruction.operation <;> rw [hop] at blind <;> dsimp only
  case load r => exact agree_bind (value_agree h) fun v p q h => proceed_agree (h.load r v)
  case store r =>
    refine agree_bind (target_agree h) fun a p q h => proceed_agree ?_
    rw [h.register r]
    exact h.store a _
  case transfer source target =>
    refine proceed_agree ?_
    rw [h.register source]
    exact h.load target _
  case loadStackPointer =>
    refine proceed_agree ?_
    rw [h.registers.sp]
    exact h.load .x _
  case setStackPointer =>
    refine proceed_agree ?_
    rw [h.registers.x]
    exact h.setSp _
  case logic f =>
    refine agree_bind (value_agree h) fun v p q h => proceed_agree ?_
    rw [h.registers.a]
    exact h.load .a _
  case add => exact agree_bind (value_agree h) fun v p q h => proceed_agree (h.add v)
  case subtract => exact agree_bind (value_agree h) fun v p q h => proceed_agree (h.subtract v)
  case compare r =>
    refine agree_bind (value_agree h) fun v p q h => proceed_agree ?_
    rw [h.register r]
    exact h.compare _ v
  case bitTest => exact agree_bind (value_agree h) fun v p q h => proceed_agree (h.testBits v)
  case change c => exact changeInPlace_agree h c
  case increment r | decrement r =>
    refine proceed_agree ?_
    rw [h.register r]
    exact h.load r _
  case branch f v => exact branch_agree h (of_decide_eq_false blind) v
  case jump => exact agree_bind (target_agree h) fun a p q h => goTo_agree h a
  case call => exact agree_bind (target_agree h) fun a p q h => goTo_agree (h.pushAddress _) a
  case returnFromCall =>
    obtain ⟨address, rest⟩ := h.pullAddress
    show Agree (goTo (p.pullAddress.1 + 1) p.pullAddress.2) (goTo (q.pullAddress.1 + 1) q.pullAddress.2)
    rw [address]
    exact goTo_agree rest _
  case softwareInterrupt => exact .ok (h.enterInterrupt _ true _)
  case returnFromInterrupt =>
    have status : (p.drop.setStatus p.top).SameButBrk (q.drop.setStatus q.top) := by
      rw [h.top_eq]
      exact h.drop.setStatus _
    obtain ⟨address, rest⟩ := status.pullAddress
    show Agree (goTo (p.drop.setStatus p.top).pullAddress.1 (p.drop.setStatus p.top).pullAddress.2)
      (goTo (q.drop.setStatus q.top).pullAddress.1 (q.drop.setStatus q.top).pullAddress.2)
    rw [address]
    exact goTo_agree rest _
  case setFlag f v => exact proceed_agree (h.setFlag f v)
  case pushAccumulator =>
    refine proceed_agree ?_
    rw [h.registers.a]
    exact h.push _
  case pullAccumulator =>
    refine proceed_agree (f := fun p => p.drop.load .a p.top) ?_
    rw [h.top_eq]
    exact h.drop.load .a _
  case pushStatus =>
    -- What is pushed has `B` set.
    refine proceed_agree ?_
    rw [h.registers.status.withBrk]
    exact h.push _
  case pullStatus =>
    refine proceed_agree (f := fun p => p.drop.setStatus p.top) ?_
    rw [h.top_eq]
    exact h.drop.setStatus _
  case nothing => exact proceed_agree h
  case undefined => exact .error rfl h

/-! ### Stores -/

omit h in
theorem writes_sameButBrk (h : p.SameButBrk q) : d.writes q = d.writes p := by
  have inMemory (new : Byte → Byte) : writes.inMemory d q new = writes.inMemory d p new := by
    unfold writes.inMemory
    rw [h.memory, d.mode.address_sameButBrk h.registers]
  unfold writes
  cases d.instruction.operation <;> dsimp only
  case store r => rw [inMemory, h.register r]
  case change c => rw [inMemory, h.flag (f := .carry) (by decide)]
  case call => rw [h.registers.sp]
  case softwareInterrupt => exact h.interruptWrites_eq ..
  case pushAccumulator => rw [h.registers.sp, h.registers.a]
  case pushStatus => rw [h.registers.sp, h.registers.status.withBrk]

end Decoded

/-! ## Signals -/

theorem Instruction.blind_of_documented {i : Instruction} (h : i ∈ documented) :
    i.operation.looksAtBrk = false := by
  have checked : documented.all fun i => !i.operation.looksAtBrk := by decide
  simpa using List.all_eq_true.mp checked i h

/-- What makes a processor go on. -/
inductive Signal
  | step
  | interrupt
  | nonMaskableInterrupt
  | reset
  deriving DecidableEq, Repr

/-- What comes of a signal: the bytes that are stored, or why it fails. -/
abbrev Answer := Except Fault (List (Address × Byte))

namespace Processor

/-- What comes of a signal, and the processor behind it. -/
def receive (p : Processor) : Signal → Answer × Processor
  | .step =>
    match p.step with
    | .ok _ q => (.ok (p.fetch.writes p), q)
    | .error e q => (.error e, q)
  | .interrupt => (.ok (p.interruptWrites (p.pc + 1) true), p.interrupt)
  | .nonMaskableInterrupt => (.ok (p.interruptWrites p.pc false), p.nonMaskableInterrupt)
  | .reset => (.ok [], p.reset)

/-- What comes of several signals. A signal that fails does not end them. -/
def drive (p : Processor) : List Signal → List Answer × Processor
  | [] => ([], p)
  | signal :: signals =>
    let (answer, q) := p.receive signal
    let (answers, r) := q.drive signals
    (answer :: answers, r)

variable {p q : Processor}

theorem reset_follows (p : Processor) : ∃ r a, p.Follows r [] ∧ p.reset = r.setPc a :=
  ⟨_, _, ((((Follows.refl p).withRegisters _).setRegister .a 0).setRegister .x 0).setRegister .y 0, rfl⟩

/-- What a signal leaves: the processor as it was, or the bytes stored, and other registers. -/
theorem receive_cases (p : Processor) (signal : Signal) :
    (∃ e, p.receive signal = (.error e, p)) ∨
      ∃ writes r q, p.receive signal = (.ok writes, q) ∧ p.Follows r writes ∧
        r.board.SameBus q.board ∧ q.name = r.name ∧ q.table = r.table := by
  have written (r : Processor) (a : Address) : r.board.SameBus (r.setPc a).board ∧
      (r.setPc a).name = r.name ∧ (r.setPc a).table = r.table :=
    ⟨r.sameBus_setPc a, r.setPc_name a, r.setPc_table a⟩
  cases signal with
  | step =>
    cases run : p.step with
    | error e q =>
      have same := eq_of_step_error run
      subst same
      exact .inl ⟨e, by rw [receive, run]⟩
    | ok l q =>
      obtain ⟨r, a, follows, rfl, -⟩ := step_cases run
      have traced : (r.setPc a).board.SameBus ((r.setPc a).trace l).board :=
        (Board.Told.note (r.setPc a).board .trace fun _ => l.text).sameBus
      obtain ⟨bus, named⟩ := written r a
      exact .inr ⟨_, r, _, by rw [receive, run], follows, bus.trans traced, named⟩
  | interrupt =>
    obtain ⟨r, a, follows, entered⟩ := p.enterInterrupt_cases (p.pc + 1) true interruptVector
    have received : p.receive .interrupt = (.ok (p.interruptWrites (p.pc + 1) true), r.setPc a) := by
      rw [← entered]
      rfl
    exact .inr ⟨_, r, _, received, follows, written r a⟩
  | nonMaskableInterrupt =>
    obtain ⟨r, a, follows, entered⟩ := p.enterInterrupt_cases p.pc false nmiVector
    have received : p.receive .nonMaskableInterrupt =
        (.ok (p.interruptWrites p.pc false), r.setPc a) := by
      rw [← entered]
      rfl
    exact .inr ⟨_, r, _, received, follows, written r a⟩
  | reset =>
    obtain ⟨r, a, follows, started⟩ := p.reset_follows
    have received : p.receive .reset = (.ok [], r.setPc a) := by
      rw [← started]
      rfl
    exact .inr ⟨_, r, _, received, follows, written r a⟩

theorem receive_name (p : Processor) (signal : Signal) : (p.receive signal).2.name = p.name := by
  obtain ⟨e, received⟩ | ⟨writes, r, q, received, follows, -, name, -⟩ := p.receive_cases signal
  · rw [received]
  · rw [received]
    exact name.trans follows.name

theorem receive_table (p : Processor) (signal : Signal) : (p.receive signal).2.table = p.table := by
  obtain ⟨e, received⟩ | ⟨writes, r, q, received, follows, -, -, table⟩ := p.receive_cases signal
  · rw [received]
  · rw [received]
    exact table.trans follows.table

/-- **On the bus, a signal has stored the bytes that its answer tells**, and has done nothing else. -/
theorem receive_sameBus {signal : Signal} {writes : List (Address × Byte)}
    (h : p.receive signal = (.ok writes, q)) : (p.board.storeList writes).SameBus q.board := by
  obtain ⟨e, received⟩ | ⟨_, r, _, received, follows, bus, -⟩ := p.receive_cases signal
  · cases h.symm.trans received
  · cases h.symm.trans received
    exact follows.board.sameBus.trans bus

namespace SameButBrk

variable (h : p.SameButBrk q)

include h

theorem finish (d : Decoded) (flow : Flow) :
    ∃ l l' p' q', Processor.finish d flow p = .ok l p' ∧ Processor.finish d flow q = .ok l' q' ∧
      p'.SameButBrk q' := by
  cases flow with
  | next => exact ⟨_, _, _, _, rfl, rfl, (h.setPc _).note ..⟩
  | jumped => exact ⟨_, _, _, _, rfl, rfl, h.note ..⟩

/-- **Steps agree** when no documented instruction looks at `B`. -/
theorem step (nmos : p.table = .nmos) :
    (∃ l l' p' q', p.step = .ok l p' ∧ q.step = .ok l' q' ∧ p'.SameButBrk q') ∨
      ∃ e, p.step = .error e p ∧ q.step = .error (e.renamed q.name) q := by
  have blind : p.fetch.instruction.operation.looksAtBrk = false := by
    show (p.table.get (p.memory.peek p.pc)).operation.looksAtBrk = false
    rw [nmos, InstructionSet.get]
    cases found : InstructionSet.nmos.get? (p.memory.peek p.pc) with
    | none => rfl
    | some i => exact Instruction.blind_of_documented (InstructionSet.mem_of_get?_ofList found)
  have agree : Agree (p.fetch.execute p) (q.fetch.execute q) := by
    rw [h.fetch_eq]
    exact Decoded.execute_agree h blind
  generalize hp : p.fetch.execute p = xp at agree
  generalize hq : q.fetch.execute q = xq at agree
  cases agree with
  | @ok flow p' q' h =>
    obtain ⟨l, l', p', q', finished, finished', h⟩ := h.finish p.fetch flow
    refine .inl ⟨l, l', p', q', (step_of_ok hp).trans finished, (step_of_ok hq).trans ?_, h⟩
    rwa [SameButBrk.fetch_eq ‹_›]
  | @error e f p' q' named h =>
    have failed := step_of_error hp
    have failed' := step_of_error hq
    have same := eq_of_step_error failed
    have same' := eq_of_step_error failed'
    subst same same' named
    exact .inr ⟨e, failed, failed'⟩

end SameButBrk

/-- **The same comes of a signal, whatever `B` is.** -/
theorem SameButBrk.receive (h : p.SameButBrk q) (nmos : p.table = .nmos) (signal : Signal) :
    (q.receive signal).1 = (p.receive signal).1.mapError (Fault.renamed q.name) ∧
      (p.receive signal).2.SameButBrk (q.receive signal).2 := by
  have pc : q.pc = p.pc := h.registers.pc
  cases signal with
  | step =>
    obtain ⟨l, l', p', q', run, run', rest⟩ | ⟨e, failed, failed'⟩ := h.step nmos
    · rw [Processor.receive, Processor.receive, run, run', h.fetch_eq, Decoded.writes_sameButBrk h]
      exact ⟨rfl, rest⟩
    · rw [Processor.receive, Processor.receive, failed, failed']
      exact ⟨rfl, h⟩
  | interrupt =>
    rw [Processor.receive, Processor.receive, interrupt, interrupt, pc, h.interruptWrites_eq]
    exact ⟨rfl, h.enterInterrupt ..⟩
  | nonMaskableInterrupt =>
    rw [Processor.receive, Processor.receive, Processor.nonMaskableInterrupt,
      Processor.nonMaskableInterrupt, pc, h.interruptWrites_eq]
    exact ⟨rfl, h.enterInterrupt ..⟩
  | reset => exact ⟨rfl, h.reset⟩

/-- **The same comes of any signals, whatever `B` is**: each of them stores the same bytes, those of a
status among them, or fails in the same way. Behind them all, memory, its hooks and all that waits for
them are the same, and so are the registers but for `B`. -/
theorem drive_sameButBrk (nmos : p.table = .nmos) (h : p.SameButBrk q) (signals : List Signal) :
    (q.drive signals).1 = (p.drive signals).1.map (·.mapError (Fault.renamed q.name)) ∧
      (p.drive signals).2.SameButBrk (q.drive signals).2 := by
  induction signals generalizing p q with
  | nil => exact ⟨rfl, h⟩
  | cons signal signals ih =>
    obtain ⟨answer, next⟩ := h.receive nmos signal
    obtain ⟨answers, last⟩ := ih ((receive_table p signal).trans nmos) next
    rw [receive_name] at answers
    refine ⟨?_, last⟩
    show (q.receive signal).1 :: ((q.receive signal).2.drive signals).1 = _
    rw [answer, answers]
    rfl

/-- A processor before `PHP` and `PLP`, at a vector that leads to `RTI`, with the given `B`. -/
def beforeStatus (brk : Bool) : Processor where
  registers := { Registers.initial 0 with status := { Status.ofByte 0x34 with brk := brk } }
  board := { memory := (((Memory.zero.set 0x0000 0x08).set 0x0001 0x28).set 0xFFFA 0x40).set 0x0040 0x40 }

/-- What `B` is when an interrupt comes is not seen behind it, nor what it is before it is pushed. -/
theorem drive_sameButBrk_beforeStatus :
    let signals := [.nonMaskableInterrupt, .step, .step, .step]
    ((beforeStatus true).drive signals).1 =
        ((beforeStatus false).drive signals).1.map (·.mapError (Fault.renamed "cpu")) ∧
      ((beforeStatus false).drive signals).2.SameButBrk ((beforeStatus true).drive signals).2 :=
  drive_sameButBrk (p := beforeStatus false) (q := beforeStatus true) rfl
    ⟨rfl, ⟨rfl, rfl, rfl, rfl, rfl, rfl⟩, .refl _⟩ _

end Processor

end Atari
