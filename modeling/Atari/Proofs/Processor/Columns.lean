import Atari.Proofs.Processor.Targets
import Mathlib.Data.Nat.Digits.Defs

/-!
# Numbers of several bytes

Numbers of several bytes are added and subtracted as on paper, one column after the other from the lowest
byte on, with an instruction for each column. The carry is all that one column hands to the next.

* `Calculation`: the two instructions; `Processor.Takes`: a processor before one of them;
* `Processor.Column`, `Processor.Columns`: one column, and several of them;
* `Processor.Column.left`: what a column leaves; `Processor.Takes.step_ok`, `Processor.exists_columns`: a column
  can always be calculated;
* **`Processor.Columns.sum`**: columns that are right one by one are right as a whole.
-/

namespace Atari

/-- An addition or a subtraction with the accumulator. -/
inductive Calculation
  | addition
  | subtraction
  deriving DecidableEq, Repr

namespace Calculation

def operation : Calculation → Operation
  | addition => .add
  | subtraction => .subtract

/-- What the operation does with a byte. -/
def apply : Calculation → Processor → Byte → Processor
  | addition => Processor.add
  | subtraction => Processor.subtract

/-- The instruction that calculates with the byte behind its opcode. -/
def immediate : Calculation → Instruction
  | addition => ⟨"ADC", 0x69, .immediate, .add⟩
  | subtraction => ⟨"SBC", 0xE9, .immediate, .subtract⟩

end Calculation

namespace Processor

variable {c : Calculation} {p q : Processor} {x y v : Byte} {decimal carry : Bool} {l : LogLine}

/-! ## One column -/

/-- The instruction at the command pointer calculates with the byte `v`. -/
structure Takes (p : Processor) (c : Calculation) (v : Byte) : Prop where
  operation : p.fetch.instruction.operation = c.operation
  value : p.fetch.mode.value p.registers p.memory p.fetch.operand = .ok v

instance (p : Processor) (c : Calculation) (v : Byte) : Decidable (p.Takes c v) :=
  decidable_of_iff
    (p.fetch.instruction.operation = c.operation ∧
      p.fetch.mode.value p.registers p.memory p.fetch.operand = .ok v)
    ⟨fun h => ⟨h.1, h.2⟩, fun h => ⟨h.operation, h.value⟩⟩

theorem Takes.execute (h : p.Takes c v) : p.fetch.execute p = .ok .next (c.apply p v) := by
  obtain ⟨operation, value⟩ := h
  have read : p.fetch.value p = .ok v p := by
    unfold Decoded.value
    rw [value]
  unfold Decoded.execute
  cases c <;> rw [operation] <;> exact Execution.bind_of_ok read

theorem Takes.step_ok (h : p.Takes c v) : ∃ l q, p.step = .ok l q := by
  obtain ⟨l, q, finished⟩ := finish_succeeds p.fetch .next (c.apply p v)
  exact ⟨l, q, (step_of_ok h.execute).trans finished⟩

theorem Takes.registers (h : p.Takes c v) (step : p.step = .ok l q) :
    q.registers = { (c.apply p v).registers with pc := q.registers.pc } := by
  rw [step_of_ok h.execute] at step
  exact (finish_kept step).1

/-- The column of two bytes: an instruction that calculates with the lower one, from a state with the upper one
in the accumulator and the carry of the column before. It leaves the processor `q`. -/
inductive Column (c : Calculation) (decimal carry : Bool) (x y : Byte) (q : Processor) : Prop
  | mk {p : Processor} {l : LogLine} : p.Takes c y → p.registers.a = x → p.flag .carry = carry →
    p.flag .decimal = decimal → p.step = .ok l q → Column c decimal carry x y q

theorem Column.left (h : Column c decimal carry x y q) :
    ∃ p : Processor, p.registers.a = x ∧ p.flag .carry = carry ∧ p.flag .decimal = decimal ∧
      q.registers.a = (c.apply p y).registers.a ∧ ∀ f, q.flag f = (c.apply p y).flag f := by
  obtain ⟨takes, a, carried, system, step⟩ := h
  refine ⟨_, a, carried, system, ?_, fun f => ?_⟩
  · rw [takes.registers step]
  · rw [flag, takes.registers step]
    rfl

theorem Takes.column (h : p.Takes c y) (a : p.registers.a = x) (carried : p.flag .carry = carry)
    (system : p.flag .decimal = decimal) : Column c decimal carry x y (p.afterSteps 1) := by
  obtain ⟨l, q, step⟩ := h.step_ok
  rw [afterSteps_of_ok step]
  exact .mk h a carried system step

/-- A processor that stands before a calculation with a byte. -/
def beforeColumn (c : Calculation) (decimal carry : Bool) (x y : Byte) : Processor where
  registers := { Registers.initial 0x0000 with
    a := x
    status := { Status.ofByte 0x34 with decimal := decimal, carry := carry } }
  board := { memory := (Memory.zero.set 0x0000 c.immediate.opcode).set 0x0001 y }

theorem takes_beforeColumn (c : Calculation) (decimal carry : Bool) (x y : Byte) :
    (beforeColumn c decimal carry x y).Takes c y := by
  let p := beforeColumn c decimal carry x y
  have opcode : p.memory.peek 0x0000 = c.immediate.opcode := by
    simp [p, beforeColumn, memory, Memory.peek_set]
  have operand : p.memory.peek 0x0001 = y := Memory.peek_set_self ..
  have entry : InstructionSet.nmos.get? c.immediate.opcode = some c.immediate := by cases c <;> decide +kernel
  have fetched := fetch_of_get? (p := p) (i := c.immediate) (opcode ▸ entry)
  have low : Address.low (p.memory.peek 0x0001).toUInt16 = y := by rw [Address.low_toUInt16, operand]
  constructor
  · rw [fetched]
    cases c <;> rfl
  · rw [fetched]
    cases c <;> exact congrArg Except.ok low

/-! ## Several columns -/

/-- The columns of some pairs of bytes, the lowest first, and the processors behind them. Whatever is done
between two columns keeps the carry, and the decimal flag is the same in all of them. -/
inductive Columns (c : Calculation) (decimal : Bool) : Bool → List (Byte × Byte) → List Processor → Prop
  | nil {carry : Bool} : Columns c decimal carry [] []
  | cons {carry : Bool} {x y : Byte} {q : Processor} {pairs : List (Byte × Byte)} {states : List Processor} :
    Column c decimal carry x y q → Columns c decimal (q.flag .carry) pairs states →
    Columns c decimal carry ((x, y) :: pairs) (q :: states)

variable {pairs : List (Byte × Byte)} {states : List Processor} {last : Processor}

theorem Columns.length_eq (h : Columns c decimal carry pairs states) : states.length = pairs.length := by
  induction h with
  | nil => rfl
  | cons _ _ ih => rw [List.length_cons, List.length_cons, ih]

theorem Columns.forall_mem {P : Processor → Prop} {Q : Byte × Byte → Prop}
    (column : ∀ {carry x y q}, Q (x, y) → Column c decimal carry x y q → P q)
    (h : Columns c decimal carry pairs states) (all : ∀ w ∈ pairs, Q w) : ∀ q ∈ states, P q := by
  induction h with
  | nil => exact fun _ mem => nomatch mem
  | cons first _ ih =>
    obtain ⟨one, others⟩ := List.forall_mem_cons.mp all
    exact List.forall_mem_cons.mpr ⟨column one first, ih others⟩

/-- **Columns add up.** If each column is right, as a sum of two digits and the carry, then the columns are right
as a sum of two numbers and the carry. -/
theorem Columns.sum {base : Nat} (digit addend : Byte → Nat) {Q : Byte × Byte → Prop}
    (column : ∀ {carry x y q}, Q (x, y) → Column c decimal carry x y q →
      digit q.registers.a + base * (q.flag .carry).toNat = digit x + addend y + carry.toNat)
    (h : Columns c decimal carry pairs (states ++ [last])) (all : ∀ w ∈ pairs, Q w) :
    Nat.ofDigits base ((states ++ [last]).map fun q => digit q.registers.a) +
        base ^ pairs.length * (last.flag .carry).toNat =
      Nat.ofDigits base (pairs.map fun w => digit w.1) + Nat.ofDigits base (pairs.map fun w => addend w.2) +
        carry.toNat := by
  -- The carry of a column counts for the columns above it.
  induction states generalizing carry pairs with
  | nil =>
    cases h with
    | cons first rest =>
      cases rest
      simpa [Nat.ofDigits] using column (all _ (.head _)) first
  | cons q states ih =>
    cases h with
    | @cons _ x y _ pairs _ first rest =>
      obtain ⟨one, others⟩ := List.forall_mem_cons.mp all
      have low := column one first
      have high := ih rest others
      simp only [List.cons_append, List.map_cons, Nat.ofDigits_cons, List.length_cons, pow_succ'] at high ⊢
      have scaled := congrArg (base * ·) high
      linarith

theorem Columns.ne_nil (h : Columns c decimal carry pairs (states ++ [last])) : pairs ≠ [] := by
  rintro rfl
  simpa using h.length_eq

theorem difference_of_complement {base r x y y' : Nat} {carry out : Bool} (inside : r < base)
    (sum : r + base * out.toNat = x + y' + carry.toNat) (complement : y' + y + 1 = base) :
    (r : Int) = (x - y - (!carry).toNat) % base ∧ (out = true ↔ y + (!carry).toNat ≤ x) := by
  have difference : (x - y - (!carry).toNat : Int) = r + base * (out.toNat - 1) := by
    cases carry <;> cases out <;> simp at sum ⊢ <;> omega
  constructor
  · rw [difference, Int.add_mul_emod_self_left, Int.emod_eq_of_lt (by omega) (by omega)]
  · cases carry <;> cases out <;> simp at sum ⊢ <;> omega

theorem exists_columns (c : Calculation) (decimal carry : Bool) (pairs : List (Byte × Byte)) :
    ∃ states, Columns c decimal carry pairs states := by
  induction pairs generalizing carry with
  | nil => exact ⟨[], .nil⟩
  | cons w pairs ih =>
    have first := (takes_beforeColumn c decimal carry w.1 w.2).column rfl rfl rfl
    obtain ⟨states, rest⟩ := ih (((beforeColumn c decimal carry w.1 w.2).afterSteps 1).flag .carry)
    exact ⟨_ :: states, .cons first rest⟩

/-- A processor that stands before two columns: the instruction, a load of the upper byte and the instruction
again. The numbers are $8000 and $0001, and the carry is set. -/
@[irreducible] def at8000 (c : Calculation) (decimal : Bool) : Processor :=
  let p := beforeColumn c decimal true 0x00 0x01
  let memory := ((p.memory.set 0x0002 0xA9).set 0x0003 0x80).set 0x0004 c.immediate.opcode
  { p with board := { memory := memory.set 0x0005 0x00 } }

theorem columns_at8000 (c : Calculation) (decimal : Bool) :
    Columns c decimal true [(0x00, 0x01), (0x80, 0x00)]
      ([(at8000 c decimal).afterSteps 1] ++ [((at8000 c decimal).afterSteps 2).afterSteps 1]) := by
  obtain ⟨low, a, carried, system, high, a', carried', system'⟩ :
      (at8000 c decimal).Takes c 0x01 ∧ (at8000 c decimal).registers.a = 0x00 ∧
        (at8000 c decimal).flag .carry = true ∧ (at8000 c decimal).flag .decimal = decimal ∧
        ((at8000 c decimal).afterSteps 2).Takes c 0x00 ∧
        ((at8000 c decimal).afterSteps 2).registers.a = 0x80 ∧
        ((at8000 c decimal).afterSteps 2).flag .carry = ((at8000 c decimal).afterSteps 1).flag .carry ∧
        ((at8000 c decimal).afterSteps 2).flag .decimal = decimal := by
    cases c <;> cases decimal <;> decide +kernel
  exact .cons (low.column a carried system) (.cons (high.column a' carried' system') .nil)

end Processor

end Atari
