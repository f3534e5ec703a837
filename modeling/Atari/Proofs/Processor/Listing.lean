import Atari.Disassembly
import Atari.Proofs.AddressText
import Atari.Proofs.Processor.Hits
import Atari.Proofs.Words

/-!
# The log and the disassembly

A step fetches the same instruction that a disassembly of the memory before the step finds at the command
pointer, whatever the instruction then does to that memory.

* **`Processor.step_listing`**: the columns of a step are those of the disassembly, and an operand that is
  a target is where the step went.
-/

namespace Atari

/-! ## Fetching -/

namespace Processor

variable {p q : Processor} {l : LogLine} {i : Instruction}

theorem fetch_of_get? (entry : p.table.get? (p.memory.peek p.pc) = some i) :
    p.fetch = ⟨p.pc, { i with opcode := p.memory.peek p.pc },
      Disassembly.operand (p.memory.bytesFrom p.pc (i.mode.width + 1))⟩ := by
  have found : p.table.get (p.memory.peek p.pc) = i := by rw [InstructionSet.get, entry]; rfl
  have narrow := width_lt i.mode
  unfold fetch
  dsimp only
  rw [found]
  -- Both read the operand by its width, one from memory and one from a list of bytes.
  match i.mode.width, narrow with
  | 0, _ | 1, _ | 2, _ => rfl

theorem fetch_bytes (entry : p.table.get? (p.memory.peek p.pc) = some i) :
    p.fetch.bytes = p.memory.bytesFrom p.pc (i.mode.width + 1) := by
  have narrow := width_lt i.mode
  rw [fetch_of_get? entry]
  unfold Decoded.bytes Decoded.mode
  dsimp only
  rw [Memory.bytesFrom]
  congr 1
  match i.mode.width, narrow with
  | 0, _ => rfl
  | 1, _ => exact congrArg (fun v => [v]) (Address.low_toUInt16 _)
  | 2, _ =>
    show [Address.low (.ofBytes _ _), Address.high (.ofBytes _ _)] = _
    rw [Address.low_ofBytes, Address.high_ofBytes]
    rfl

theorem fetch_listing (entry : p.table.get? (p.memory.peek p.pc) = some i) :
    p.fetch.listing =
      let bytes := p.memory.bytesFrom p.pc (i.mode.width + 1)
      ⟨p.pc, bytes, i.mnemonic, i.mode.format (Disassembly.operand bytes) p.pc⟩ := by
  unfold Decoded.listing
  rw [fetch_bytes entry]
  unfold Decoded.operandText Decoded.mode
  rw [fetch_of_get? entry]

/-- The line of a step is about the instruction that was fetched and the registers that it left. -/
theorem step_ok_line (h : p.step = .ok l q) : l = ⟨p.fetch, q.registers⟩ := by
  unfold step at h
  dsimp only at h
  cases hx : p.fetch.execute p with
  | error e r =>
    rw [hx] at h
    cases h
  | ok flow r =>
    rw [hx] at h
    cases flow with
    | next | jumped =>
      cases h
      rfl

end Processor

/-- The line of a disassembly at the command pointer, unless the instruction runs past the end of
memory. -/
theorem Disassembly.line?_fetch {p : Processor} {i : Instruction}
    (entry : p.table.get? (p.memory.peek p.pc) = some i)
    (fits : p.pc.toNat + i.mode.width < Memory.size) :
    line? p.table p.memory p.pc = some (p.fetch.listing, after? p.pc (i.mode.width + 1)) := by
  have inside : (after? p.pc i.mode.width).isSome := by rw [after?, if_pos fits]; rfl
  unfold line?
  dsimp only
  rw [entry]
  dsimp only
  rw [if_pos inside, Processor.fetch_listing entry]

/-! ## Lines of text -/

theorem exists_trimEnd_append (s : String) : ∃ blanks, s = trimEnd s ++ blanks := by
  refine ⟨String.ofList (s.toList.reverse.takeWhile isBlank).reverse, String.toList_inj.mp ?_⟩
  rw [String.toList_append, trimEnd, String.toList_ofList, String.toList_ofList, trimEndChars,
    ← List.reverse_append, List.takeWhile_append_dropWhile, List.reverse_reverse]

theorem LogLine.text_eq (l : LogLine) : ∃ rest, l.text = l.listing.text ++ rest := by
  obtain ⟨blanks, trimmed⟩ := exists_trimEnd_append (l.listing.columns ++ l.listing.operand)
  let fill := String.ofList (List.replicate (15 - l.listing.operand.length) ' ')
  refine ⟨blanks ++ (fill ++ "  " ++ l.registers.outcome), ?_⟩
  calc l.text
    _ = l.listing.columns ++ (l.listing.operand ++ fill) ++ "  " ++ l.registers.outcome := rfl
    _ = l.listing.columns ++ l.listing.operand ++ (fill ++ "  " ++ l.registers.outcome) := by
      simp only [String.append_assoc]
    _ = l.listing.text ++ blanks ++ (fill ++ "  " ++ l.registers.outcome) :=
      congrArg (· ++ (fill ++ "  " ++ l.registers.outcome)) trimmed
    _ = l.listing.text ++ (blanks ++ (fill ++ "  " ++ l.registers.outcome)) := String.append_assoc

/-! ## Tables -/

namespace InstructionSet

theorem get?_insert (s : InstructionSet) (i : Instruction) (opcode : Byte) :
    (s.insert i).get? opcode = if i.opcode = opcode then some i else s.get? opcode := by
  rw [get?, insert, Cells.get_set _ i.opcode.toNat_lt opcode.toNat_lt, get?]
  simp only [UInt8.toNat_inj]

theorem mem_of_get?_foldl {entries : List Instruction} {s : InstructionSet} {opcode : Byte}
    {i : Instruction} (h : (entries.foldl insert s).get? opcode = some i) :
    i ∈ entries ∨ s.get? opcode = some i := by
  induction entries generalizing s with
  | nil => exact .inr h
  | cons j entries ih =>
    obtain later | earlier := ih h
    · exact .inl (List.mem_cons_of_mem j later)
    · rw [get?_insert] at earlier
      split at earlier
      · cases earlier
        exact .inl List.mem_cons_self
      · exact .inr earlier

theorem mem_of_get?_ofList {entries : List Instruction} {opcode : Byte} {i : Instruction}
    (h : (ofList entries).get? opcode = some i) : i ∈ entries := by
  refine (mem_of_get?_foldl h).resolve_right fun none => ?_
  rw [get?, empty, Cells.get_fill] at none
  cases none

end InstructionSet

/-- Whether the operand of an instruction is where it goes on: a branch that is taken, a jump to the
address behind it, or a call. -/
def Instruction.LeadsToOperand (i : Instruction) (p : Processor) : Prop :=
  match i.operation with
  | .branch f v => p.flag f = v
  | .jump => i.mode = .absolute
  | .call => True
  | _ => False

/-- Documented branches are relative, and documented calls are absolute. -/
theorem Instruction.mode_of_leads {i : Instruction} (h : i ∈ documented) {p : Processor}
    (leads : i.LeadsToOperand p) : i.mode = .relative ∨ i.mode = .absolute := by
  have checked : documented.all fun i => match i.operation with
      | .branch _ _ => i.mode = .relative
      | .call => i.mode = .absolute
      | _ => true := by decide
  have mode := List.all_eq_true.mp checked i h
  unfold LeadsToOperand at leads
  cases hop : i.operation with
  | branch f v =>
    rw [hop] at mode
    exact .inl (of_decide_eq_true mode)
  | jump =>
    rw [hop] at leads
    exact .inr leads
  | call =>
    rw [hop] at mode
    exact .inr (of_decide_eq_true mode)
  | _ =>
    rw [hop] at leads
    exact leads.elim

theorem AddressingMode.format_of_address {mode : AddressingMode}
    (shown : mode = .relative ∨ mode = .absolute) (r : Registers) (m : Memory) (operand : Address) :
    ∃ a, mode.address r m operand = .ok a ∧ mode.format operand r.pc = a.text := by
  obtain rfl | rfl := shown
  · exact ⟨_, rfl, rfl⟩
  · exact ⟨_, rfl, rfl⟩

namespace Processor

variable {p q : Processor} {l : LogLine} {i : Instruction}

/-- An operand that is a target is where a step goes on. -/
theorem operandText_of_leads (entry : p.table.get? (p.memory.peek p.pc) = some i)
    (leads : i.LeadsToOperand p) (shown : i.mode = .relative ∨ i.mode = .absolute)
    (step : p.step = .ok l q) : p.fetch.operandText = q.pc.text := by
  obtain ⟨a, target, text⟩ :=
    AddressingMode.format_of_address shown p.registers p.memory p.fetch.operand
  have fetched := fetch_of_get? entry
  have mode : p.fetch.mode = i.mode := by rw [fetched]; rfl
  have operation : p.fetch.instruction.operation = i.operation := by rw [fetched]
  have address : p.fetch.address = p.registers.pc := rfl
  have goes : p.fetch.destination? p = some a := by
    have here : Decoded.destination?.operandAddress? p.fetch p = some a := by
      rw [Decoded.destination?.operandAddress?, mode, target]
      rfl
    unfold Decoded.destination?
    rw [operation]
    unfold Instruction.LeadsToOperand at leads
    revert leads
    cases i.operation with
    | branch f v => exact fun taken => (if_pos taken).trans here
    | jump | call => exact fun _ => here
    | _ => exact False.elim
  rw [step_pc step, nextPc, goes, Decoded.operandText, mode, address, text]
  rfl

/-- **The line of a step** has the columns of the first line that a disassembly at the command pointer
makes from the memory before the step: its bytes are those that were fetched, even if the instruction
changed them. The line printed for the step begins with the line printed for the disassembly. With the
documented instructions, a branch that is taken, an absolute jump and a call go on at the address that is
printed as their operand. -/
theorem step_listing (entry : p.table.get? (p.memory.peek p.pc) = some i)
    (fits : p.pc.toNat + i.mode.width < Memory.size) (step : p.step = .ok l q) :
    (∀ n, (Disassembly.lines p.table p.memory (n + 1) (some p.pc)).head? = some l.listing) ∧
      l.listing.bytes = p.memory.bytesFrom p.pc (i.mode.width + 1) ∧
      (∃ rest, l.text = l.listing.text ++ rest) ∧
      (p.table = .nmos → i.LeadsToOperand p →
        l.listing.operand = q.pc.text ∧ Address.parse l.listing.operand = .ok q.pc) := by
  have decoded : l.listing = p.fetch.listing := by rw [step_ok_line step]; rfl
  refine ⟨fun n => ?_, ?_, l.text_eq, fun table leads => ?_⟩
  · rw [Disassembly.lines, Disassembly.line?_fetch entry fits, decoded]
    rfl
  · rw [decoded]
    exact fetch_bytes entry
  · have documented : i ∈ Instruction.documented := by
      rw [table] at entry
      exact InstructionSet.mem_of_get?_ofList entry
    have text : l.listing.operand = q.pc.text := by
      rw [decoded]
      exact operandText_of_leads entry leads (Instruction.mode_of_leads documented leads) step
    rw [text]
    exact ⟨rfl, Address.parse_text q.pc⟩

/-- A processor that stands before a call whose operand lies in the free slots of the stack. -/
def callOverItself : Processor where
  registers := { Registers.initial 0x01FD with sp := 0xFF }
  board := { memory := ((Memory.zero.set 0x01FD 0x20).set 0x01FE 0x34).set 0x01FF 0x12 }

/-- The line of the call has the bytes before the return address took their place. -/
theorem step_listing_callOverItself :
    ∃ l q, callOverItself.step = .ok l q ∧ q.memory.bytesFrom 0x01FD 3 = [0x20, 0xFF, 0x01] ∧
      (Disassembly.lines .nmos callOverItself.memory 1 (some 0x01FD)).head? = some l.listing ∧
      l.listing.bytes = [0x20, 0x34, 0x12] ∧ l.listing.operand = q.pc.text ∧ q.pc = 0x1234 := by
  have memory : (callOverItself.afterSteps 1).memory.bytesFrom 0x01FD 3 = [0x20, 0xFF, 0x01] := by
    decide +kernel
  have pc : (callOverItself.afterSteps 1).pc = 0x1234 := by decide +kernel
  cases step : callOverItself.step with
  | error e q =>
    rw [afterSteps_of_error step] at pc
    exact absurd pc (by decide)
  | ok l q =>
    rw [afterSteps_of_ok step] at memory pc
    obtain ⟨lines, bytes, -, operand⟩ :=
      step_listing (i := ⟨"JSR", 0x20, .absolute, .call⟩) (by decide +kernel) (by decide) step
    exact ⟨l, q, rfl, memory, lines 0, bytes.trans (by decide +kernel), (operand rfl trivial).1, pc⟩

end Processor

end Atari
