import Atari.Proofs.Antic.Lines
import Atari.Proofs.Processor.Listing
import Mathlib.Data.List.Nodup

/-!
# Documented instructions

A documented instruction has a mode that gives its operation what it asks for, a value or a location, so it
never fails. All that it stores are single bytes, and the bus refuses none of them.

* `AddressingMode.serves`: whether a mode serves an operation; `Instruction.serves_of_documented`: it does
  in every documented instruction;
* `Board.pokeList`: bytes that the bus checks one after the other; `Board.pokeList_eq`: it takes them all;
* **`Processor.step_fails_iff`**: a step fails on an opcode that is not documented, and on no other.
-/

namespace Atari

/-! ## Operands -/

namespace AddressingMode

/-- Whether the operand stands for a location. -/
def locates : AddressingMode → Bool
  | accumulator | immediate | implied => false
  | absolute | absoluteX | absoluteY | indirect | indexedIndirect | indirectIndexed | relative
  | zeroPage | zeroPageX | zeroPageY => true

variable {mode : AddressingMode} (r : Registers) (m : Memory) (operand : Address)

theorem exists_value (h : mode ≠ .implied) : ∃ v, mode.value r m operand = .ok v := by
  cases mode with
  | implied => exact absurd rfl h
  | _ => exact ⟨_, rfl⟩

theorem exists_address (h : mode.locates = true) : ∃ a, mode.address r m operand = .ok a := by
  cases mode with
  | accumulator | immediate | implied => cases h
  | _ => exact ⟨_, rfl⟩

/-- Whether a mode gives an operation what it asks of its operand. -/
def serves (mode : AddressingMode) : Operation → Bool
  | .load _ | .logic _ | .add | .subtract | .compare _ | .bitTest => mode ≠ implied
  | .store _ | .branch _ _ | .jump | .call => mode.locates
  | .change _ => mode = accumulator ∨ mode.locates
  | .undefined => false
  | .transfer _ _ | .loadStackPointer | .setStackPointer | .increment _ | .decrement _
  | .returnFromCall | .softwareInterrupt | .returnFromInterrupt | .setFlag _ _ | .pushAccumulator
  | .pullAccumulator | .pushStatus | .pullStatus | .nothing => true

end AddressingMode

namespace Decoded

open Execution Processor

variable {d : Decoded} (p : Processor)

theorem value_run (h : d.mode ≠ .implied) : ∃ v, d.value p = .ok v p := by
  obtain ⟨v, hv⟩ := AddressingMode.exists_value p.registers p.memory d.operand h
  exact ⟨v, by unfold value; rw [hv]⟩

theorem target_run (h : d.mode.locates = true) : ∃ a, d.target p = .ok a p := by
  obtain ⟨a, ha⟩ := AddressingMode.exists_address p.registers p.memory d.operand h
  exact ⟨a, by unfold target; rw [ha]⟩

theorem value_bind_ok (h : d.mode ≠ .implied) {f : Byte → Execution Flow}
    (hf : ∀ v, Succeeds (f v)) : ∃ flow q, (d.value >>= f) p = .ok flow q := by
  obtain ⟨v, hv⟩ := d.value_run p h
  rw [bind_of_ok hv]
  exact hf v p

theorem target_bind_ok (h : d.mode.locates = true) {f : Address → Execution Flow}
    (hf : ∀ a, Succeeds (f a)) : ∃ flow q, (d.target >>= f) p = .ok flow q := by
  obtain ⟨a, ha⟩ := d.target_run p h
  rw [bind_of_ok ha]
  exact hf a p

/-- **An operation that its mode serves succeeds**, whatever the state and the hooks are. -/
theorem execute_ok (h : d.mode.serves d.instruction.operation = true) :
    ∃ flow q, d.execute p = .ok flow q := by
  unfold execute
  cases hop : d.instruction.operation <;> rw [hop] at h <;> simp only [AddressingMode.serves] at h
  case load | logic | add | subtract | compare | bitTest =>
    exact value_bind_ok p (of_decide_eq_true h) fun v => proceed_succeeds _
  case store => exact target_bind_ok p h fun a => proceed_succeeds _
  case change c =>
    dsimp only
    unfold changeInPlace
    split
    · exact proceed_succeeds _ p
    · rename_i other
      have located := (of_decide_eq_true h).resolve_left other
      exact target_bind_ok p located fun a => proceed_succeeds _
  case branch f v =>
    dsimp only
    rw [branch_run]
    split
    · exact target_bind_ok p h goTo_succeeds
    · exact proceed_succeeds _ p
  case jump => exact target_bind_ok p h goTo_succeeds
  case call => exact target_bind_ok p h fun a p => goTo_succeeds a _
  case returnFromCall | returnFromInterrupt => exact goTo_succeeds _ _
  case softwareInterrupt => exact ⟨_, _, rfl⟩
  case undefined => cases h
  all_goals exact proceed_succeeds _ p

end Decoded

/-! ## Tables -/

theorem Instruction.serves_of_documented {i : Instruction} (h : i ∈ documented) :
    i.mode.serves i.operation = true := by
  have checked : documented.all fun i => i.mode.serves i.operation := by decide
  exact List.all_eq_true.mp checked i h

namespace InstructionSet

variable {entries : List Instruction} {opcode : Byte}

theorem opcode_of_get?_foldl {s : InstructionSet}
    (h : ∀ opcode i, s.get? opcode = some i → i.opcode = opcode) {i : Instruction}
    (found : (entries.foldl insert s).get? opcode = some i) : i.opcode = opcode := by
  induction entries generalizing s with
  | nil => exact h opcode i found
  | cons j entries ih =>
    refine ih (fun opcode i found => ?_) found
    rw [get?_insert] at found
    split at found
    · cases found
      assumption
    · exact h opcode i found

theorem opcode_of_get?_ofList {i : Instruction} (found : (ofList entries).get? opcode = some i) :
    i.opcode = opcode := by
  refine opcode_of_get?_foldl (fun opcode i found => ?_) found
  rw [get?, empty, Cells.get_fill] at found
  cases found

theorem isSome_get?_foldl {s : InstructionSet}
    (h : (s.get? opcode).isSome = true ∨ opcode ∈ entries.map (·.opcode)) :
    ((entries.foldl insert s).get? opcode).isSome = true := by
  induction entries generalizing s with
  | nil => simpa using h
  | cons j entries ih =>
    refine ih ?_
    rw [get?_insert]
    split
    · exact .inl rfl
    · rename_i other
      have apart : opcode ≠ j.opcode := fun e => other e.symm
      simpa [apart] using h

theorem isSome_get?_ofList :
    ((ofList entries).get? opcode).isSome = true ↔ opcode ∈ entries.map (·.opcode) := by
  constructor
  · intro h
    obtain ⟨i, found⟩ := Option.isSome_iff_exists.mp h
    exact List.mem_map.mpr ⟨i, mem_of_get?_ofList found, opcode_of_get?_ofList found⟩
  · exact fun h => isSome_get?_foldl (.inr h)

theorem get?_ofList (single : (entries.map (·.opcode)).Nodup) {i : Instruction} (h : i ∈ entries) :
    (ofList entries).get? i.opcode = some i := by
  obtain ⟨j, found⟩ := Option.isSome_iff_exists.mp
    (isSome_get?_ofList.mpr (List.mem_map_of_mem (f := (·.opcode)) h))
  have same := List.inj_on_of_nodup_map single (mem_of_get?_ofList found) h (opcode_of_get?_ofList found)
  rwa [same] at found

end InstructionSet

namespace Instruction

theorem length_documented : documented.length = 151 := by decide +kernel

theorem nodup_documented : (documented.map (·.opcode)).Nodup := by
  have numbers : ((documented.map (·.opcode)).map UInt8.toNat).Nodup := by decide +kernel
  exact numbers.of_map _

end Instruction

/-! ## Bytes that are checked -/

namespace Board

/-- Stores bytes one after the other, each at its own address, up to one that the bus refuses. -/
def pokeList (b : Board) (writes : List (Address × Byte)) : Except MemoryError Board :=
  writes.foldlM (fun b w => b.poke w.1 [w.2]) b

theorem poke_byte (b : Board) (a : Address) (v : Byte) : b.poke a [v] = .ok (b.store a v) := by
  have inside : a.toNat + [v].length ≤ Memory.size := a.toNat_lt
  unfold poke pokeWith
  rw [if_pos inside]
  rfl

theorem pokeList_eq (b : Board) (writes : List (Address × Byte)) :
    b.pokeList writes = .ok (b.storeList writes) := by
  unfold pokeList
  induction writes generalizing b with
  | nil => rfl
  | cons w writes ih =>
    rw [List.foldlM_cons, poke_byte]
    exact ih (b.store w.1 w.2)

end Board

/-! ## Steps -/

namespace Processor

variable {p : Processor}

theorem step_of_get?_none (none : p.table.get? (p.memory.peek p.pc) = none) :
    p.step = .error (.invalidInstruction (p.memory.peek p.pc) p.pc p.name) p := by
  have fetched : p.fetch = ⟨p.pc, { Instruction.invalid with opcode := p.memory.peek p.pc }, 0⟩ := by
    have found : p.table.get (p.memory.peek p.pc) = .invalid := by rw [InstructionSet.get, none]; rfl
    unfold fetch
    dsimp only
    rw [found]
    rfl
  refine step_of_error ?_
  rw [fetched]
  rfl

theorem step_ok_of_documented (nmos : p.table = .nmos)
    (h : p.memory.peek p.pc ∈ Instruction.documented.map (·.opcode)) : ∃ l q, p.step = .ok l q := by
  have entry := InstructionSet.isSome_get?_ofList.mpr h
  rw [← InstructionSet.nmos, ← nmos] at entry
  obtain ⟨i, found⟩ := Option.isSome_iff_exists.mp entry
  have documented : i ∈ Instruction.documented := by
    rw [nmos] at found
    exact InstructionSet.mem_of_get?_ofList found
  have serves : p.fetch.mode.serves p.fetch.instruction.operation = true := by
    rw [fetch_of_get? found]
    show i.mode.serves i.operation = true
    exact Instruction.serves_of_documented documented
  obtain ⟨flow, r, run⟩ := p.fetch.execute_ok p serves
  obtain ⟨l, q, finished⟩ := finish_succeeds p.fetch flow r
  exact ⟨l, q, (step_of_ok run).trans finished⟩

/-- **A step fails on an opcode that is not documented, and on no other**, whatever the registers, the
memory and the hooks are. It then tells the opcode, its address and the name of the processor. The bytes
that a documented instruction stores are all taken by the bus, and so is each byte that is stored
meanwhile, at any depth of hooks. -/
theorem step_fails_iff (nmos : p.table = .nmos) :
    let opcode := p.memory.peek p.pc
    let opcodes := Instruction.documented.map (·.opcode)
    opcodes.length = 151 ∧ opcodes.Nodup ∧
    ((∃ e q, p.step = .error e q) ↔ opcode ∉ opcodes) ∧
    (∀ e q, p.step = .error e q → e = .invalidInstruction opcode p.pc p.name) ∧
    (opcode ∈ opcodes → ∃ l q b, p.step = .ok l q ∧
      p.board.pokeList (p.fetch.writes p) = .ok b ∧ b.SameBus q.board) ∧
    ∀ refused depth, Board.storeOr refused depth = Board.storeWithin depth := by
  intro opcode opcodes
  have fails (h : opcode ∉ opcodes) : p.step = .error (.invalidInstruction opcode p.pc p.name) p := by
    refine step_of_get?_none (Option.not_isSome_iff_eq_none.mp fun entry => h ?_)
    rw [nmos] at entry
    exact InstructionSet.isSome_get?_ofList.mp entry
  have undocumented {e : Fault} {q : Processor} (failed : p.step = .error e q) : opcode ∉ opcodes := by
    intro h
    obtain ⟨l, q', step⟩ := step_ok_of_documented nmos h
    cases failed.symm.trans step
  refine ⟨(List.length_map _).trans Instruction.length_documented, Instruction.nodup_documented,
    ⟨fun ⟨e, q, failed⟩ => undocumented failed, fun h => ⟨_, _, fails h⟩⟩,
    fun e q failed => ?_, fun h => ?_, Board.storeOr_eq⟩
  · cases failed.symm.trans (fails (undocumented failed))
    rfl
  · obtain ⟨l, q, step⟩ := step_ok_of_documented nmos h
    exact ⟨l, q, _, step, Board.pokeList_eq .., step_sameBus step⟩

/-- A processor that stands before an instruction with the operand `WSYNC`, where a display waits. -/
def beforeWsync (opcode : Byte) : Processor where
  board := Board.install { memory := ((Memory.zero.set 0x0000 opcode).set 0x0001 0x0A).set 0x0002 0xD4
                           displays := #[some (.on (.recorder {}))] } 0

/-- A store at `WSYNC` succeeds, and an opcode that is not documented fails. -/
theorem step_fails_iff_beforeWsync :
    (∃ l q, (beforeWsync 0x8D).step = .ok l q) ∧
      ∃ e q, (beforeWsync 0x02).step = .error e q ∧ e = .invalidInstruction 0x02 0x0000 "cpu" := by
  obtain ⟨-, -, -, -, stores, -⟩ := step_fails_iff (p := beforeWsync 0x8D) rfl
  obtain ⟨-, -, fails, told, -⟩ := step_fails_iff (p := beforeWsync 0x02) rfl
  obtain ⟨l, q, -, step, -⟩ := stores (by decide +kernel)
  obtain ⟨e, r, failed⟩ := fails.mpr (by decide +kernel)
  have opcode : (beforeWsync 0x02).memory.peek (beforeWsync 0x02).pc = 0x02 := by decide +kernel
  refine ⟨⟨l, q, step⟩, e, r, failed, ?_⟩
  rw [told e r failed, opcode]
  rfl

end Processor

end Atari
