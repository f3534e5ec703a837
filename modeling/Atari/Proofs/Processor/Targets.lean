import Atari.Proofs.Processor.Footprint

/-!
# What a step changes

* `Decoded.execute_confined`, `Decoded.execute_moves`, `Decoded.execute_leaves`: what an instruction does to
  the registers, the stack pointer and the flags for its result;
* `Decoded.writes_locations`: where it stores;
* `Footprint.Describes`: what a step may change and what it leaves;
* **`Processor.step_footprint`**: a step changes nothing but the documented targets of its instruction.
-/

namespace Atari

/-! ## Instructions -/

namespace Decoded

open Processor Execution Footprint Decoded.destination?

variable {d : Decoded} {p q : Processor} {flow : Flow} {P : Processor → Prop}

theorem proceed_gives {change : Processor → Processor} (h : proceed change p = .ok flow q)
    (hc : P (change p)) : P q := by
  cases h
  exact hc

theorem goTo_gives {a : Address} (h : goTo a p = .ok flow q) (hc : P (p.setPc a)) : P q := by
  cases h
  exact hc

theorem value_gives {change : Byte → Processor → Processor}
    (h : (d.value >>= fun v => proceed (change v)) p = .ok flow q) (hc : ∀ v, P (change v p)) : P q := by
  obtain ⟨v, r, value, rest⟩ := bind_ok h
  rw [value_ok value] at rest
  exact proceed_gives rest (hc v)

theorem target_gives {f : Address → Execution Flow} (h : (d.target >>= f) p = .ok flow q)
    (hf : ∀ a, d.mode.address p.registers p.memory d.operand = .ok a → f a p = .ok flow q → P q) :
    P q := by
  obtain ⟨a, r, target, rest⟩ := bind_ok h
  obtain ⟨rfl, address⟩ := target_ok target
  exact hf a address rest

theorem changeInPlace_confined {c : Change} (h : d.changeInPlace c p = .ok flow q) :
    ((Operation.change c).footprint d.mode).Confines p q := by
  have start {f : Footprint} : f.Confines p p := .refl f p
  have moves (out : (c.carryOut? 0).isSome) : .carry ∈ ((Operation.change c).footprint d.mode).flags := by
    show Flag.carry ∈ if (c.carryOut? 0).isSome then [.negative, .zero, .carry] else [.negative, .zero]
    rw [if_pos out]
    exact .tail _ (.tail _ (.head _))
  have negative : .negative ∈ ((Operation.change c).footprint d.mode).flags := by
    cases c <;> exact .head _
  have zero : .zero ∈ ((Operation.change c).footprint d.mode).flags := by
    cases c <;> exact .tail _ (.head _)
  unfold changeInPlace at h
  split at h
  · rename_i accumulator
    have target : ((Operation.change c).footprint d.mode).destination = some (.register .a) := by
      rw [Operation.footprint, if_pos accumulator]
    exact proceed_gives h ((start.shiftOut moves _).load target negative zero _)
  · exact target_gives h fun a _ h =>
      proceed_gives h (((start.shiftOut moves _).store a _).setNZ negative zero _)

/-- **Among the registers, an instruction changes its targets alone.** -/
theorem execute_confined (h : d.execute p = .ok flow q) :
    (d.instruction.operation.footprint d.mode).Confines p q := by
  have start {f : Footprint} : f.Confines p p := .refl f p
  unfold execute at h
  cases hop : d.instruction.operation <;> rw [hop] at h <;> dsimp only at h
  case load r => exact value_gives h fun v => start.load rfl (.head _) (.tail _ (.head _)) v
  case store r => exact target_gives h fun a _ h => proceed_gives h (start.store a _)
  case transfer _ r | increment r | decrement r =>
    exact proceed_gives h (start.load rfl (.head _) (.tail _ (.head _)) _)
  case loadStackPointer => exact proceed_gives h (start.load rfl (.head _) (.tail _ (.head _)) _)
  case setStackPointer => exact proceed_gives h (start.setSp _)
  case logic f => exact value_gives h fun v => start.load rfl (.head _) (.tail _ (.head _)) _
  case add => exact value_gives h fun v => start.add rfl (fun _ mem => mem) v
  case subtract => exact value_gives h fun v => start.subtract rfl (fun _ mem => mem) v
  case compare r =>
    exact value_gives h fun v =>
      (start.setFlag (.tail _ (.tail _ (.head _))) _).setNZ (.head _) (.tail _ (.head _)) _
  case bitTest =>
    exact value_gives h fun v =>
      ((start.setFlag (.tail _ (.tail _ (.head _))) _).setFlag (.head _) _).setFlag
        (.tail _ (.head _)) _
  case change c => exact changeInPlace_confined h
  case branch f v =>
    rw [branch_run] at h
    split at h
    · exact target_gives h fun a _ h => goTo_gives h (start.setPc a)
    · exact proceed_gives h start
  case jump => exact target_gives h fun a _ h => goTo_gives h (start.setPc a)
  case call => exact target_gives h fun a _ h => goTo_gives h ((start.pushAddress _).setPc a)
  case returnFromCall => exact goTo_gives h (start.pullAddress.setPc _)
  case softwareInterrupt =>
    cases h
    exact start.enterInterrupt (.head _) (.tail _ (.head _)) _ true _
  case returnFromInterrupt =>
    exact goTo_gives h ((((start.setSp _).setStatus rfl _).pullAddress).setPc _)
  case setFlag f v => exact proceed_gives h (start.setFlag (List.mem_singleton.mpr rfl) v)
  case pushAccumulator | pushStatus => exact proceed_gives h (start.push _)
  case pullAccumulator =>
    exact proceed_gives h ((start.setSp _).load rfl (.head _) (.tail _ (.head _)) _)
  case pullStatus => exact proceed_gives h ((start.setSp _).setStatus rfl _)
  case nothing => exact proceed_gives h start
  case undefined => cases h

/-! ### The stack pointer -/

theorem sp_load (p : Processor) (r : Register) (v : Byte) :
    (p.load r v).registers.sp = p.registers.sp := sp_setRegister p r v

theorem sp_add (p : Processor) (v : Byte) : (p.add v).registers.sp = p.registers.sp := by
  unfold Processor.add
  split <;> rfl

theorem sp_subtract (p : Processor) (v : Byte) : (p.subtract v).registers.sp = p.registers.sp := by
  unfold Processor.subtract
  split <;> rfl

theorem sp_shiftOut (p : Processor) (c : Change) (v : Byte) :
    (p.shiftOut c v).registers.sp = p.registers.sp := by
  cases c <;> rfl

theorem moves_setPc {use : StackUse} {r : Processor} (h : use.Moves p r) (a : Address) :
    use.Moves p (r.setPc a) := by
  rw [StackUse.Moves, setPc_registers]
  exact h

/-- An instruction moves the stack pointer as it is documented. -/
theorem execute_moves (h : d.execute p = .ok flow q) :
    (d.instruction.operation.footprint d.mode).stack.Moves p q := by
  unfold execute at h
  cases hop : d.instruction.operation <;> rw [hop] at h <;> dsimp only at h
  case load r => exact value_gives h fun v => sp_load p r v
  case store r => exact target_gives h fun a _ h => proceed_gives h rfl
  case transfer _ r | increment r | decrement r => exact proceed_gives h (sp_load p r _)
  case loadStackPointer => exact proceed_gives h (sp_load p .x _)
  case setStackPointer => exact proceed_gives h rfl
  case logic f => exact value_gives h fun v => sp_load p .a _
  case add => exact value_gives h fun v => sp_add p v
  case subtract => exact value_gives h fun v => sp_subtract p v
  case compare | bitTest => exact value_gives h fun v => rfl
  case change c =>
    unfold changeInPlace at h
    split at h
    · exact proceed_gives h (sp_shiftOut p c _)
    · exact target_gives h fun a _ h => proceed_gives h (sp_shiftOut p c _)
  case branch f v =>
    rw [branch_run] at h
    split at h
    · refine target_gives h fun a _ h => goTo_gives h (moves_setPc ?_ a)
      rfl
    · exact proceed_gives h rfl
  case jump =>
    refine target_gives h fun a _ h => goTo_gives h (moves_setPc ?_ a)
    rfl
  case call =>
    have two : p.registers.sp - 1 - 1 = p.registers.sp - UInt8.ofNat 2 := by grind
    refine target_gives h fun a _ h => goTo_gives h (moves_setPc ?_ a)
    exact two
  case returnFromCall =>
    have two : p.registers.sp + 1 + 1 = p.registers.sp + UInt8.ofNat 2 := by grind
    refine goTo_gives h (moves_setPc ?_ _)
    exact two
  case softwareInterrupt =>
    have three : p.registers.sp - 1 - 1 - 1 = p.registers.sp - UInt8.ofNat 3 := by grind
    cases h
    exact (enterInterrupt_sp ..).trans three
  case returnFromInterrupt =>
    have three : p.registers.sp + 1 + 1 + 1 = p.registers.sp + UInt8.ofNat 3 := by grind
    refine goTo_gives h (moves_setPc ?_ _)
    exact three
  case setFlag | pushAccumulator | pushStatus | pullStatus | nothing => exact proceed_gives h rfl
  case pullAccumulator => exact proceed_gives h (sp_load p.drop .a _)
  case undefined => cases h

/-! ### Results -/

theorem changeInPlace_leaves {c : Change} (h : d.changeInPlace c p = .ok flow q)
    (free : ∀ a, p.board.hooks.on a = []) {place : Destination}
    (left : ((Operation.change c).footprint d.mode).destination = some place) :
    place.Leaves (operandAddress? d p) q := by
  unfold changeInPlace at h
  dsimp only [Operation.footprint] at left
  split at h
  · rename_i accumulator
    rw [if_pos accumulator] at left
    cases left
    exact proceed_gives h (.load _ .a _)
  · rename_i other
    rw [if_neg other] at left
    cases left
    refine target_gives h fun a found h => proceed_gives h (.setNZ _ ?_)
    have address : operandAddress? d p = some a := by rw [operandAddress?, found]; rfl
    have board (v : Byte) : (p.shiftOut c v).board = p.board := by cases c <;> rfl
    show (operandAddress? d p).map (((p.shiftOut c _).board.store a _).memory.peek) = _
    rw [address, board, Board.store_of_on_eq_nil (free a)]
    exact congrArg some (Memory.peek_set_self ..)

/-- **An instruction that sets `N` and `Z` for its result does so for the byte that it leaves.** -/
theorem execute_leaves (h : d.execute p = .ok flow q) (free : ∀ a, p.board.hooks.on a = [])
    {place : Destination} (left : (d.instruction.operation.footprint d.mode).destination = some place)
    (negative : .negative ∈ (d.instruction.operation.footprint d.mode).flags)
    (binary : (d.instruction.operation.footprint d.mode).decimal = true → p.flag .decimal = false) :
    place.Leaves (operandAddress? d p) q := by
  unfold execute at h
  cases hop : d.instruction.operation <;> rw [hop] at h left negative binary <;> dsimp only at h
  case load r =>
    cases left
    exact value_gives h fun v => .load p r v
  case transfer _ r | increment r | decrement r =>
    cases left
    exact proceed_gives h (.load p r _)
  case loadStackPointer =>
    cases left
    exact proceed_gives h (.load p .x _)
  case logic f =>
    cases left
    exact value_gives h fun v => .load p .a _
  case add =>
    cases left
    refine value_gives h fun v => ?_
    rw [Processor.add, binary rfl]
    exact .addBinary p v
  case subtract =>
    cases left
    refine value_gives h fun v => ?_
    rw [Processor.subtract, binary rfl]
    exact .addBinary p _
  case change c => exact changeInPlace_leaves h free left
  case pullAccumulator =>
    cases left
    exact proceed_gives h (.load p.drop .a _)
  case store => cases negative
  all_goals cases left

/-! ### Stores -/

theorem locations_inMemory (new : Byte → Byte) :
    (writes.inMemory d p new).map (·.1) = (operandAddress? d p).toList := by
  unfold writes.inMemory operandAddress?
  split <;> rename_i found <;> rw [found] <;> rfl

/-- **An instruction stores at its targets**, one byte at each. -/
theorem writes_locations (d : Decoded) (p : Processor) : (d.writes p).map (·.1) =
    (d.instruction.operation.footprint d.mode).locations (operandAddress? d p) p.registers.sp := by
  unfold writes
  cases d.instruction.operation <;> dsimp only
  case store r => exact (locations_inMemory _).trans (List.append_nil _).symm
  case change c =>
    by_cases accumulator : d.mode = .accumulator
    · rw [if_pos accumulator]
      simp [locations, Operation.footprint, accumulator, freeSlots, StackUse.pushed]
    · rw [if_neg accumulator, locations_inMemory]
      simp [locations, Operation.footprint, accumulator, freeSlots, StackUse.pushed]
  all_goals rfl

end Decoded

/-! ## Stores -/

theorem Board.storeList_of_free {b : Board} (free : ∀ a, b.hooks.on a = [])
    (writes : List (Address × Byte)) :
    b.storeList writes = { b with memory := writes.foldl (fun m w => m.set w.1 w.2) b.memory } := by
  induction writes generalizing b with
  | nil => rfl
  | cons w writes ih =>
    rw [storeList_cons, store_of_on_eq_nil (free w.1)]
    exact ih free

theorem Memory.peek_foldl_set {writes : List (Address × Byte)} {a : Address}
    (other : a ∉ writes.map (·.1)) (m : Memory) :
    (writes.foldl (fun m w => m.set w.1 w.2) m).peek a = m.peek a := by
  induction writes generalizing m with
  | nil => rfl
  | cons w writes ih =>
    rw [List.map_cons, List.mem_cons, not_or] at other
    rw [List.foldl_cons, ih other.2, peek_set, if_neg (Ne.symm other.1)]

/-! ## Steps -/

namespace Processor

open Decoded.destination?

variable {p q : Processor} {l : LogLine}

theorem high_of_mem_freeSlots {sp : Byte} {n : Nat} {a : Address} (h : a ∈ freeSlots sp n) :
    a.high = 1 := by
  induction n generalizing sp with
  | zero => cases h
  | succ n ih =>
    cases h with
    | head => exact high_stackSlot sp
    | tail _ h => exact ih h

theorem length_freeSlots (sp : Byte) (n : Nat) : (freeSlots sp n).length = n := by
  induction n generalizing sp with
  | zero => rfl
  | succ n ih => exact congrArg (· + 1) (ih (sp - 1))

theorem nodup_freeSlots (sp : Byte) {n : Nat} (few : n ≤ 3) : (freeSlots sp n).Nodup := by
  have one : sp ≠ sp - 1 := by grind
  have two : sp ≠ sp - 1 - 1 := by grind
  have next : sp - 1 ≠ sp - 1 - 1 := by grind
  match n with
  | 0 | 1 | 2 | 3 => simp [freeSlots, stackSlot_inj, one, two, next]

theorem finish_kept {d : Decoded} {flow : Flow} {r : Processor} (h : finish d flow r = .ok l q) :
    q.registers = { r.registers with pc := q.registers.pc } ∧ q.memory = r.memory := by
  cases flow with
  | next =>
    rw [finish_next, finish_jumped] at h
    cases h
    rw [trace_registers, trace_memory, setPc_registers, setPc_memory]
    exact ⟨rfl, rfl⟩
  | jumped =>
    cases h
    exact ⟨rfl, trace_memory ..⟩

theorem step_rest (h : p.step = .ok l q) (free : ∀ a, p.board.hooks.on a = []) :
    ∃ registers memory journal log stop, q = { p with
      registers := registers
      board := { p.board with memory := memory, journal := journal, log := log, stop := stop } } := by
  obtain ⟨r, a, follows, rfl, -⟩ := step_cases h
  obtain ⟨journal, log, board⟩ := follows.board
  rw [Board.storeList_of_free free] at board
  obtain ⟨journal', log', stop, moved⟩ := r.setPc_eq a
  obtain ⟨log'', noted⟩ := (r.setPc a).board.note_eq .trace fun _ => l.text
  refine ⟨{ r.registers with pc := a }, (p.fetch.writes p).foldl (fun m w => m.set w.1 w.2) p.memory,
    journal', log'', stop, ?_⟩
  rw [trace, onBoard, noted, moved, board, follows.name, follows.table, follows.onA, follows.onX,
    follows.onY, follows.breakpoints]
  rfl

end Processor

open Decoded.destination? in
/-- What a step may change and what it leaves, the command pointer aside. -/
structure Footprint.Describes (f : Footprint) (p q : Processor) : Prop where
  /-- Those who watch, the hooks and the displays stay. -/
  rest : ∃ registers memory journal log stop, q = { p with
    registers := registers
    board := { p.board with memory := memory, journal := journal, log := log, stop := stop } }
  registers : f.Confines p q
  sp : f.stack.Moves p q
  /-- There is a location for a result in memory. -/
  located : f.destination = some .operand → (operandAddress? p.fetch p).isSome
  /-- What is pushed has a slot of its own in page one. -/
  slots : (Processor.freeSlots p.registers.sp f.stack.pushed).length = f.stack.pushed ∧
    (Processor.freeSlots p.registers.sp f.stack.pushed).Nodup ∧
    ∀ a ∈ Processor.freeSlots p.registers.sp f.stack.pushed, a.high = 1
  stores : (p.fetch.writes p).map (·.1) = f.locations (operandAddress? p.fetch p) p.registers.sp
  memory : q.memory = (p.fetch.writes p).foldl (fun m w => m.set w.1 w.2) p.memory
  others : ∀ a ∉ f.locations (operandAddress? p.fetch p) p.registers.sp,
    q.memory.peek a = p.memory.peek a
  /-- The flags for a result are those of the byte that is left. -/
  left : ∀ place, f.destination = some place → .negative ∈ f.flags → .zero ∈ f.flags →
    (f.decimal = true → p.flag .decimal = false) → place.Leaves (operandAddress? p.fetch p) q

namespace Processor

open Decoded.destination?

variable {p : Processor} {i : Instruction}

theorem pushed_footprint_le (operation : Operation) (mode : AddressingMode) :
    (operation.footprint mode).stack.pushed ≤ 3 := by
  cases operation <;> simp [Operation.footprint, Footprint.loads, StackUse.pushed]

theorem locates_of_serves {mode : AddressingMode} {operation : Operation}
    (serves : mode.serves operation = true)
    (operand : (operation.footprint mode).destination = some .operand) : mode.locates = true := by
  cases operation with
  | store r => exact serves
  | change c =>
    refine (of_decide_eq_true serves).resolve_left fun accumulator => ?_
    rw [Operation.footprint, if_pos accumulator] at operand
    cases operand
  | _ => cases operand

theorem flags_enterInterrupt (a : Address) (brk : Bool) (vector : Address) :
    (p.enterInterrupt a brk vector).flag .brk = brk ∧
      (p.enterInterrupt a brk vector).flag .interrupt = true := by
  rw [flag, flag, enterInterrupt_registers]
  exact ⟨rfl, rfl⟩

/-- A step whose operand serves it changes nothing but the targets of its operation. -/
theorem step_describes (free : ∀ a, p.board.hooks.on a = [])
    (serves : p.fetch.mode.serves p.fetch.instruction.operation = true) :
    ∃ l q, p.step = .ok l q ∧
      (p.fetch.instruction.operation.footprint p.fetch.mode).Describes p q ∧
      (p.fetch.instruction.operation = .softwareInterrupt →
        q.flag .brk = true ∧ q.flag .interrupt = true) := by
  obtain ⟨flow, r, run⟩ := p.fetch.execute_ok p serves
  obtain ⟨l, q, finished⟩ := finish_succeeds p.fetch flow r
  have step : p.step = .ok l q := (step_of_ok run).trans finished
  obtain ⟨registers, memory⟩ := finish_kept finished
  have kept (k : Register) : q.register k = r.register k := by
    cases k <;> simp only [register] <;> rw [registers]
  have status : q.registers.status = r.registers.status := by rw [registers]
  have stored : q.memory = (p.fetch.writes p).foldl (fun m w => m.set w.1 w.2) p.memory := by
    have bus := (step_sameBus step).memory
    rwa [Board.storeList_of_free free] at bus
  have stores := p.fetch.writes_locations p
  refine ⟨l, q, step, ?_, fun interrupts => ?_⟩
  · exact {
      rest := step_rest step free
      registers := (Decoded.execute_confined run).moved kept status
      sp := (congrArg Registers.sp registers).trans (Decoded.execute_moves run)
      located := fun operand => by
        obtain ⟨a, found⟩ := AddressingMode.exists_address p.registers p.memory p.fetch.operand
          (locates_of_serves serves operand)
        rw [operandAddress?, found]
        rfl
      slots := ⟨length_freeSlots .., nodup_freeSlots _ (pushed_footprint_le _ _),
        fun a => high_of_mem_freeSlots⟩
      stores := stores
      memory := stored
      others := fun a other => by
        rw [stored]
        exact Memory.peek_foldl_set (stores ▸ other) p.memory
      left := fun place left negative _ binary =>
        (Decoded.execute_leaves run free left negative binary).moved kept status memory }
  · unfold Decoded.execute at run
    rw [interrupts] at run
    cases run
    rw [flag, flag, status]
    exact flags_enterInterrupt _ true _

/-- **A step changes nothing but the documented targets of its instruction**, the command pointer aside, when
no hooks wait for what it stores. -/
theorem step_footprint (nmos : p.table = .nmos) (free : ∀ a, p.board.hooks.on a = [])
    (row : i ∈ Instruction.documented) (here : p.memory.peek p.pc = i.opcode) :
    ∃ f l q, Footprint.ofMnemonic? i.mnemonic i.mode = some f ∧ p.step = .ok l q ∧ f.Describes p q ∧
      (i.mnemonic = "BRK" → q.flag .brk = true ∧ q.flag .interrupt = true) := by
  have entry : p.table.get? (p.memory.peek p.pc) = some i := by
    rw [here, nmos]
    exact InstructionSet.get?_ofList Instruction.nodup_documented row
  have fetched := fetch_of_get? entry
  have mode : p.fetch.mode = i.mode := by rw [fetched]; rfl
  have operation : p.fetch.instruction.operation = i.operation := by rw [fetched]
  have documented := Instruction.footprint_of_documented row
  have serves := Instruction.serves_of_documented row
  rw [← mode, ← operation] at serves
  obtain ⟨l, q, step, describes, interrupts⟩ := step_describes free serves
  rw [mode, operation] at describes
  refine ⟨_, l, q, documented, step, describes, fun brk => interrupts ?_⟩
  have checked : Instruction.documented.all fun i =>
      i.mnemonic = "BRK" → i.operation = .softwareInterrupt := by decide +kernel
  exact operation.trans (of_decide_eq_true (List.all_eq_true.mp checked i row) brk)

/-- A processor before an instruction that increments the byte at `$0080`, which is all ones. -/
def beforeIncrement : Processor where
  board := { memory := ((Memory.zero.set 0x0000 0xE6).set 0x0001 0x80).set 0x0080 0xFF }

/-- The byte, `N` and `Z` change, and nothing else does. -/
theorem step_footprint_beforeIncrement :
    ∃ l q, beforeIncrement.step = .ok l q ∧ q.flag .zero = (q.memory.peek 0x0080 == 0) ∧
      (∀ a ≠ 0x0080, q.memory.peek a = beforeIncrement.memory.peek a) ∧
      (∀ g, g ≠ .negative → g ≠ .zero → q.flag g = beforeIncrement.flag g) ∧
      (∀ r, q.register r = beforeIncrement.register r) ∧
      q.registers.sp = beforeIncrement.registers.sp := by
  obtain ⟨f, l, q, known, step, describes, -⟩ :=
    step_footprint (p := beforeIncrement) (i := ⟨"INC", 0xE6, .zeroPage, .change .increment⟩) rfl
      (fun _ => rfl) (by decide +kernel) (by decide +kernel)
  have place : operandAddress? beforeIncrement.fetch beforeIncrement = some 0x0080 := by decide +kernel
  cases known
  obtain ⟨v, byte, -, zero⟩ := describes.left .operand rfl (.head _) (.tail _ (.head _)) nofun
  rw [place] at byte
  cases byte
  refine ⟨l, q, step, zero, fun a other => describes.others a ?_, fun g n z => ?_,
    fun r => describes.registers.register r nofun, describes.sp⟩
  · rw [place]
    simpa [Footprint.locations, freeSlots, StackUse.pushed] using other
  · exact describes.registers.flag rfl g (by simp [n, z])

end Processor

end Atari
