import Atari.Proofs.Processor.Documented
import Atari.Proofs.Processor.Return

/-!
# Footprints

An instruction has documented targets: the place where it leaves its result, some flags, the stack pointer,
and the slots that it pushes. What lies outside of them is its frame.

* `Footprint`: the targets of an instruction; `Footprint.ofMnemonic?`: those that are documented;
* `Operation.footprint`: the targets of an operation; `Instruction.footprint_of_documented`: they are the
  documented ones;
* `Footprint.Confines`: nothing but the targets among the registers has changed, with a lemma for each part
  of an instruction;
* `Destination.Leaves`: the flags are those of the byte that was left.
-/

namespace Atari

/-! ## Footprints -/

/-- Where an instruction leaves its result. -/
inductive Destination
  | register (r : Register)
  /-- The byte at the location of the operand. -/
  | operand
  deriving DecidableEq, Repr

/-- What becomes of the stack pointer. -/
inductive StackUse
  | kept
  | pushes (n : Nat)
  | pulls (n : Nat)
  /-- It is taken from `X`. -/
  | taken
  deriving DecidableEq, Repr

namespace StackUse

/-- The number of bytes that are pushed. -/
def pushed : StackUse → Nat
  | pushes n => n
  | _ => 0

/-- The stack pointer afterwards. -/
def pointer (use : StackUse) (r : Registers) : Byte :=
  match use with
  | kept => r.sp
  | pushes n => r.sp - UInt8.ofNat n
  | pulls n => r.sp + UInt8.ofNat n
  | taken => r.x

def Moves (use : StackUse) (p q : Processor) : Prop := q.registers.sp = use.pointer p.registers

end StackUse

/-- The slots that `n` pushes fill, the first one with the given stack pointer. -/
def Processor.freeSlots (sp : Byte) : (n : Nat) → List Address
  | 0 => []
  | n + 1 => stackSlot sp :: freeSlots (sp - 1) n

/-- What an instruction may change, the command pointer aside. -/
structure Footprint where
  destination : Option Destination := none
  flags : List Flag := []
  /-- Whether the status is replaced as a whole. -/
  wholeStatus : Bool := false
  stack : StackUse := .kept
  /-- Whether the flags have rules of their own when the decimal flag is set. -/
  decimal : Bool := false
  deriving DecidableEq, Repr

namespace Footprint

/-- A register and the flags for it. -/
def loads (r : Register) : Footprint :=
  { destination := some (.register r), flags := [.negative, .zero] }

/-- The documented targets of the instructions with a mnemonic. -/
def ofMnemonic? (mnemonic : String) (mode : AddressingMode) : Option Footprint :=
  match mnemonic with
  | "LDA" | "TXA" | "TYA" | "AND" | "ORA" | "EOR" => some (loads .a)
  | "LDX" | "TAX" | "TSX" | "INX" | "DEX" => some (loads .x)
  | "LDY" | "TAY" | "INY" | "DEY" => some (loads .y)
  | "PLA" => some { loads .a with stack := .pulls 1 }
  | "ADC" | "SBC" => some { loads .a with flags := [.negative, .overflow, .zero, .carry], decimal := true }
  | "CMP" | "CPX" | "CPY" => some { flags := [.negative, .zero, .carry] }
  | "BIT" => some { flags := [.negative, .overflow, .zero] }
  | "ASL" | "LSR" | "ROL" | "ROR" =>
    let place := if mode = .accumulator then .register .a else .operand
    some { destination := some place, flags := [.negative, .zero, .carry] }
  | "INC" | "DEC" => some { destination := some .operand, flags := [.negative, .zero] }
  | "STA" | "STX" | "STY" => some { destination := some .operand }
  | "CLC" | "SEC" => some { flags := [.carry] }
  | "CLD" | "SED" => some { flags := [.decimal] }
  | "CLI" | "SEI" => some { flags := [.interrupt] }
  | "CLV" => some { flags := [.overflow] }
  | "BCC" | "BCS" | "BEQ" | "BNE" | "BMI" | "BPL" | "BVC" | "BVS" | "JMP" | "NOP" => some {}
  | "TXS" => some { stack := .taken }
  | "PHA" | "PHP" => some { stack := .pushes 1 }
  | "JSR" => some { stack := .pushes 2 }
  | "BRK" => some { stack := .pushes 3, flags := [.brk, .interrupt] }
  | "PLP" => some { stack := .pulls 1, wholeStatus := true }
  | "RTI" => some { stack := .pulls 3, wholeStatus := true }
  | "RTS" => some { stack := .pulls 2 }
  | _ => none

/-- Where bytes are stored: at the location of the operand, or on the stack. -/
def locations (f : Footprint) (operand? : Option Address) (sp : Byte) : List Address :=
  (if f.destination = some .operand then operand?.toList else []) ++
    Processor.freeSlots sp f.stack.pushed

end Footprint

/-- The targets of an operation. -/
def Operation.footprint (mode : AddressingMode) : Operation → Footprint
  | load r | transfer _ r | increment r | decrement r => .loads r
  | loadStackPointer => .loads .x
  | logic _ => .loads .a
  | pullAccumulator => { Footprint.loads .a with stack := .pulls 1 }
  | add | subtract =>
    { Footprint.loads .a with
      flags := [.negative, .overflow, .zero, .carry], decimal := true }
  | compare _ => { flags := [.negative, .zero, .carry] }
  | bitTest => { flags := [.negative, .overflow, .zero] }
  | change c =>
    { destination := some (if mode = .accumulator then .register .a else .operand)
      flags := if (c.carryOut? 0).isSome then [.negative, .zero, .carry] else [.negative, .zero] }
  | store _ => { destination := some .operand }
  | setFlag f _ => { flags := [f] }
  | branch _ _ | jump | nothing | undefined => {}
  | setStackPointer => { stack := .taken }
  | pushAccumulator | pushStatus => { stack := .pushes 1 }
  | call => { stack := .pushes 2 }
  | softwareInterrupt => { stack := .pushes 3, flags := [.brk, .interrupt] }
  | pullStatus => { stack := .pulls 1, wholeStatus := true }
  | returnFromInterrupt => { stack := .pulls 3, wholeStatus := true }
  | returnFromCall => { stack := .pulls 2 }

theorem Instruction.footprint_of_documented {i : Instruction} (h : i ∈ documented) :
    Footprint.ofMnemonic? i.mnemonic i.mode = some (i.operation.footprint i.mode) := by
  have checked : documented.all fun i =>
      Footprint.ofMnemonic? i.mnemonic i.mode = some (i.operation.footprint i.mode) := by decide +kernel
  exact of_decide_eq_true (List.all_eq_true.mp checked i h)

/-! ## Registers -/

theorem Status.get_set_of_ne {f g : Flag} (other : f ≠ g) (s : Status) (v : Bool) :
    (s.set g v).get f = s.get f := by
  cases f <;> cases g <;> first | rfl | exact absurd rfl other

theorem Status.unused_set (s : Status) (g : Flag) (v : Bool) : (s.set g v).unused = s.unused := by
  cases g <;> rfl

namespace Processor

variable (p : Processor)

theorem register_setRegister (r : Register) (v : Byte) : (p.setRegister r v).register r = v := by
  cases r <;> rfl

theorem register_setRegister_of_ne {k r : Register} (other : k ≠ r) (v : Byte) :
    (p.setRegister r v).register k = p.register k := by
  cases k <;> cases r <;> first | rfl | exact absurd rfl other

theorem sp_setRegister (r : Register) (v : Byte) :
    (p.setRegister r v).registers.sp = p.registers.sp := by
  cases r <;> rfl

theorem status_setRegister (r : Register) (v : Byte) :
    (p.setRegister r v).registers.status = p.registers.status := by
  cases r <;> rfl

end Processor

namespace Footprint

open Processor

/-- Among the registers, nothing but the targets has changed, the two pointers aside. -/
structure Confines (f : Footprint) (p q : Processor) : Prop where
  register : ∀ r, f.destination ≠ some (.register r) → q.register r = p.register r
  flag : f.wholeStatus = false → ∀ g ∉ f.flags, q.flag g = p.flag g
  unused : f.wholeStatus = false → q.registers.status.unused = p.registers.status.unused

namespace Confines

variable {f : Footprint} {p q q' : Processor}

theorem refl (f : Footprint) (p : Processor) : f.Confines p p :=
  ⟨fun _ _ => rfl, fun _ _ _ => rfl, fun _ => rfl⟩

variable (h : f.Confines p q)

include h

theorem moved (registers : ∀ r, q'.register r = q.register r)
    (status : q'.registers.status = q.registers.status) : f.Confines p q' where
  register r other := (registers r).trans (h.register r other)
  flag part g other := by
    rw [Processor.flag, status]
    exact h.flag part g other
  unused part := by
    rw [status]
    exact h.unused part

theorem setRegister {r : Register} (target : f.destination = some (.register r)) (v : Byte) :
    f.Confines p (q.setRegister r v) where
  register k other := by
    have apart : k ≠ r := by
      rintro rfl
      exact other target
    rw [register_setRegister_of_ne q apart]
    exact h.register k other
  flag part g other := by
    rw [Processor.flag, status_setRegister]
    exact h.flag part g other
  unused part := by
    rw [status_setRegister]
    exact h.unused part

theorem setFlag {g : Flag} (target : g ∈ f.flags) (v : Bool) : f.Confines p (q.setFlag g v) where
  register := h.register
  flag part k other := by
    have apart : k ≠ g := by
      rintro rfl
      exact other target
    exact (Status.get_set_of_ne apart ..).trans (h.flag part k other)
  unused part := (Status.unused_set ..).trans (h.unused part)

theorem setStatus (whole : f.wholeStatus = true) (v : Byte) : f.Confines p (q.setStatus v) where
  register := h.register
  flag part := nomatch whole.symm.trans part
  unused part := nomatch whole.symm.trans part

theorem setNZ (n : .negative ∈ f.flags) (z : .zero ∈ f.flags) (v : Byte) :
    f.Confines p (q.setNZ v) :=
  (h.setFlag n _).setFlag z _

theorem load {r : Register} (target : f.destination = some (.register r)) (n : .negative ∈ f.flags)
    (z : .zero ∈ f.flags) (v : Byte) : f.Confines p (q.load r v) :=
  (h.setRegister target v).setNZ n z v

theorem setPc (a : Address) : f.Confines p (q.setPc a) :=
  h.moved (fun r => by cases r <;> simp [Processor.register]) (by rw [setPc_registers])

theorem store (a : Address) (v : Byte) : f.Confines p (q.store a v) :=
  h.moved (fun r => by cases r <;> rfl) rfl

theorem setSp (v : Byte) : f.Confines p (q.setSp v) :=
  h.moved (fun r => by cases r <;> rfl) rfl

theorem push (v : Byte) : f.Confines p (q.push v) := (h.store _ v).setSp _

theorem pushAddress (a : Address) : f.Confines p (q.pushAddress a) := (h.push _).push _

theorem pullAddress : f.Confines p q.pullAddress.2 := (h.setSp _).setSp _

theorem shiftOut {c : Change} (target : (c.carryOut? 0).isSome → .carry ∈ f.flags) (v : Byte) :
    f.Confines p (q.shiftOut c v) := by
  unfold Processor.shiftOut
  cases c with
  | increment | decrement => exact h
  | shiftLeft | shiftRight | rotateLeft | rotateRight => exact h.setFlag (target rfl) _

theorem enterInterrupt (brk : .brk ∈ f.flags) (interrupt : .interrupt ∈ f.flags) (a : Address)
    (v : Bool) (vector : Address) : f.Confines p (q.enterInterrupt a v vector) := by
  have pushed : f.Confines p (q.pushed a v) :=
    (((h.pushAddress a).setFlag brk v).push _).setFlag interrupt true
  have noted : f.Confines p
      ((q.pushed a v).onBoard (·.note .debug fun _ => q.interruptNote a v vector)) :=
    pushed.moved (fun r => by cases r <;> rfl) rfl
  exact noted.setPc _

section Arithmetic

variable (target : f.destination = some (.register .a))
  (flags : ∀ g ∈ [Flag.negative, .overflow, .zero, .carry], g ∈ f.flags)

include target flags

theorem setDecimal (result : Byte) (carry : Bool) : f.Confines p (q.setDecimal result carry) := by
  have written := h.setRegister target result
  exact (((written.setFlag (flags _ (by decide)) _).setFlag (flags _ (by decide)) _).setFlag
    (flags _ (by decide)) _).setFlag (flags _ (by decide)) _

theorem addBinary (v : Byte) : f.Confines p (q.addBinary v) := by
  have written (result : Byte) := h.setRegister target result
  exact (((written _).setFlag (flags _ (by decide)) _).setFlag (flags _ (by decide)) _).setNZ
    (flags _ (by decide)) (flags _ (by decide)) _

theorem add (v : Byte) : f.Confines p (q.add v) := by
  unfold Processor.add
  split
  · exact h.setDecimal target flags _ _
  · exact h.addBinary target flags v

theorem subtract (v : Byte) : f.Confines p (q.subtract v) := by
  unfold Processor.subtract
  split
  · exact h.setDecimal target flags _ _
  · exact h.addBinary target flags _

end Arithmetic

end Confines

end Footprint

namespace Destination

open Processor

/-- The byte at a destination. -/
def byte? (place : Destination) (operand? : Option Address) (q : Processor) : Option Byte :=
  match place with
  | register r => some (q.register r)
  | operand => operand?.map q.memory.peek

/-- The flags are those of the byte at a destination. -/
def Leaves (place : Destination) (operand? : Option Address) (q : Processor) : Prop :=
  ∃ v, place.byte? operand? q = some v ∧ q.flag .negative = v.isNegative ∧ q.flag .zero = (v == 0)

variable {place : Destination} {operand? : Option Address} (p : Processor)

theorem Leaves.setNZ {v : Byte} (left : place.byte? operand? p = some v) :
    place.Leaves operand? (p.setNZ v) := by
  refine ⟨v, ?_, rfl, rfl⟩
  rw [← left]
  cases place with
  | register r => cases r <;> rfl
  | operand => rfl

theorem Leaves.load (r : Register) (v : Byte) : (register r).Leaves operand? (p.load r v) :=
  .setNZ _ (congrArg some (p.register_setRegister r v))

theorem Leaves.moved {q q' : Processor} (h : place.Leaves operand? q)
    (registers : ∀ r, q'.register r = q.register r)
    (status : q'.registers.status = q.registers.status) (memory : q'.memory = q.memory) :
    place.Leaves operand? q' := by
  obtain ⟨v, left, negative, zero⟩ := h
  have byte : place.byte? operand? q' = place.byte? operand? q := by
    cases place with
    | register r => exact congrArg some (registers r)
    | operand => rw [byte?, byte?, memory]
  refine ⟨v, byte.trans left, ?_, ?_⟩
  · rwa [flag, status]
  · rwa [flag, status]

theorem Leaves.addBinary (v : Byte) : (register .a).Leaves operand? (p.addBinary v) := .setNZ _ rfl

end Destination

end Atari
