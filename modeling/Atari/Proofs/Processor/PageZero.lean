import Atari.Processor.Basic
import Atari.Proofs.Words

/-!
# Modes of page zero

Five addressing modes look at the low byte of their operand alone, and at page zero: an index is added to it within
the page, and a pointer at the end of the page has its high byte at the start of the page. What is in the rest of
memory makes no difference to them.

* `Memory.pageZero`, `Memory.pageZeroPointer`: the bytes and the pointers of page zero;
* `Processor.SamePageZero`: processors that these modes do not tell apart;
* **`Processor.SamePageZero.resolves`**: they lead to the same location.
-/

namespace Atari

/-! ## Page zero -/

namespace Memory

variable (m : Memory)

/-- A byte of page zero; only the low byte of its place counts. -/
def pageZero (i : Nat) : Byte := m.peek (UInt16.ofNat (i % 256))

/-- A pointer in page zero. The last one has its high byte at the start of the page. -/
def pageZeroPointer (i : Nat) : Nat := (m.pageZero i).toNat + 256 * (m.pageZero (i + 1)).toNat

variable {i j : Nat}

theorem pageZero_congr (same : i % 256 = j % 256) : m.pageZero i = m.pageZero j := by
  rw [pageZero, pageZero, same]

theorem pageZeroPointer_congr (same : i % 256 = j % 256) : m.pageZeroPointer i = m.pageZeroPointer j := by
  have next : (i + 1) % 256 = (j + 1) % 256 := by omega
  rw [pageZeroPointer, pageZeroPointer, m.pageZero_congr same, m.pageZero_congr next]

end Memory

namespace AddressingMode

variable (n operand : Address) (index : Byte)

theorem toNat_inPageZero : (inPageZero n).toNat = n.toNat % 256 := by
  rw [inPageZero, UInt16.toNat_and]
  exact Nat.and_two_pow_sub_one_eq_mod n.toNat 8

theorem inPageZero_eq : inPageZero n = UInt16.ofNat (n.toNat % 256) := by
  rw [← toNat_inPageZero, UInt16.ofNat_toNat]

theorem toNat_inPageZero_add :
    (inPageZero (operand + index.toUInt16)).toNat = (operand.toNat + index.toNat) % 256 := by
  rw [toNat_inPageZero, UInt16.toNat_add, UInt8.toNat_toUInt16]
  omega

theorem high_inPageZero : (inPageZero n).high = 0 := by
  apply UInt8.toNat_inj.mp
  rw [Address.high, UInt16.toNat_toUInt8, UInt16.toNat_shiftRight, toNat_inPageZero, Nat.shiftRight_eq_div_pow]
  simp

end AddressingMode

open AddressingMode in
theorem Memory.pointer_inPageZero (m : Memory) (n : Address) :
    (m.pointer (inPageZero n) true).toNat = m.pageZeroPointer n.toNat := by
  have place : inPageZero n = UInt16.ofNat (n.toNat % 256) := inPageZero_eq n
  have next : Address.ofBytes ((inPageZero n).low + 1) (inPageZero n).high =
      UInt16.ofNat ((n.toNat + 1) % 256) := by
    apply UInt16.toNat_inj.mp
    have small : (n.toNat + 1) % 256 < UInt16.size := Nat.lt_of_lt_of_le (Nat.mod_lt _ (by decide)) (by decide)
    rw [high_inPageZero, Address.toNat_ofBytes, UInt8.toNat_add, Address.low, UInt16.toNat_toUInt8,
      toNat_inPageZero, UInt16.toNat_ofNat_of_lt' small]
    simp
  rw [pointer, if_pos rfl, next, Address.toNat_ofBytes, place]
  exact congrArg _ (Nat.mul_comm ..)

/-! ## Modes -/

namespace AddressingMode

variable (r : Registers) (m : Memory) (operand : Address)

theorem address_zeroPage : zeroPage.address r m operand = .ok (UInt16.ofNat (operand.toNat % 256)) :=
  congrArg Except.ok (inPageZero_eq operand)

theorem address_zeroPageX :
    zeroPageX.address r m operand = .ok (UInt16.ofNat ((operand.toNat + r.x.toNat) % 256)) := by
  rw [← toNat_inPageZero_add, UInt16.ofNat_toNat]
  rfl

theorem address_zeroPageY :
    zeroPageY.address r m operand = .ok (UInt16.ofNat ((operand.toNat + r.y.toNat) % 256)) := by
  rw [← toNat_inPageZero_add, UInt16.ofNat_toNat]
  rfl

theorem address_indexedIndirect : indexedIndirect.address r m operand =
    .ok (UInt16.ofNat (m.pageZeroPointer (operand.toNat + r.x.toNat))) := by
  have sum : (operand + r.x.toUInt16).toNat % 256 = (operand.toNat + r.x.toNat) % 256 := by
    rw [← toNat_inPageZero, toNat_inPageZero_add]
  rw [← m.pageZeroPointer_congr sum, ← m.pointer_inPageZero, UInt16.ofNat_toNat]
  rfl

theorem address_indirectIndexed : indirectIndexed.address r m operand =
    .ok (UInt16.ofNat ((m.pageZeroPointer operand.toNat + r.y.toNat) % 65536)) := by
  have sum : (m.pointer (inPageZero operand) true + r.y.toUInt16).toNat =
      (m.pageZeroPointer operand.toNat + r.y.toNat) % 65536 := by
    rw [UInt16.toNat_add, m.pointer_inPageZero, UInt8.toNat_toUInt16]
  rw [← sum, UInt16.ofNat_toNat]
  rfl

theorem value_of_address {mode : AddressingMode} {a : Address} (h : mode.address r m operand = .ok a) :
    mode.value r m operand = .ok (m.peek a) := by
  unfold address at h
  unfold value
  cases found : mode.evaluate r m operand with
  | address c =>
    rw [found] at h
    cases h
    rfl
  | value | nothing =>
    rw [found] at h
    cases h

/-- The modes that look at page zero. -/
def onPageZero : List AddressingMode := [zeroPage, zeroPageX, zeroPageY, indexedIndirect, indirectIndexed]

end AddressingMode

/-! ## Processors -/

namespace Processor

open AddressingMode

/-- Processors with the same index registers and the same bytes in page zero. Anything else may differ. -/
structure SamePageZero (p q : Processor) : Prop where
  x : q.registers.x = p.registers.x
  y : q.registers.y = p.registers.y
  peek : ∀ a : Address, a.toNat < 256 → q.memory.peek a = p.memory.peek a

variable {p q : Processor} {operand other : Address}

namespace SamePageZero

variable (same : p.SamePageZero q)

include same

theorem pageZero (i : Nat) : q.memory.pageZero i = p.memory.pageZero i := by
  have place : i % 256 < 256 := Nat.mod_lt i (by decide)
  refine same.peek _ ?_
  rwa [UInt16.toNat_ofNat_of_lt' (Nat.lt_of_lt_of_le place (by decide))]

theorem pageZeroPointer (i : Nat) : q.memory.pageZeroPointer i = p.memory.pageZeroPointer i := by
  rw [Memory.pageZeroPointer, Memory.pageZeroPointer, same.pageZero, same.pageZero]

end SamePageZero

theorem mod_eq_of_low_eq (low : other.low = operand.low) : other.toNat % 256 = operand.toNat % 256 := by
  have bytes := congrArg UInt8.toNat low
  rwa [Address.low, Address.low, UInt16.toNat_toUInt8, UInt16.toNat_toUInt8] at bytes

/-- **Modes of page zero lead to the same location** for processors with the same index registers and the same page
zero, and for operands with the same low byte. Without a pointer they stay in page zero, where an index wraps around.
Both bytes of a pointer are read in page zero, and `Y` is added to it behind that. In any mode, the value of an
operand with a location is the byte there. -/
theorem SamePageZero.resolves (same : p.SamePageZero q) (low : other.low = operand.low) :
    let n := operand.toNat
    let x := p.registers.x.toNat
    let y := p.registers.y.toNat
    (∀ mode ∈ onPageZero,
      mode.address q.registers q.memory other = mode.address p.registers p.memory operand) ∧
    zeroPage.address p.registers p.memory operand = .ok (UInt16.ofNat (n % 256)) ∧
    zeroPageX.address p.registers p.memory operand = .ok (UInt16.ofNat ((n + x) % 256)) ∧
    zeroPageY.address p.registers p.memory operand = .ok (UInt16.ofNat ((n + y) % 256)) ∧
    indexedIndirect.address p.registers p.memory operand =
      .ok (UInt16.ofNat (p.memory.pageZeroPointer (n + x))) ∧
    indirectIndexed.address p.registers p.memory operand =
      .ok (UInt16.ofNat ((p.memory.pageZeroPointer n + y) % 65536)) ∧
    ∀ (mode : AddressingMode) (r : Registers) (m : Memory) (operand a : Address),
      mode.address r m operand = .ok a → mode.value r m operand = .ok (m.peek a) := by
  intro n x y
  have operands := mod_eq_of_low_eq low
  have sum (i : Nat) : (other.toNat + i) % 256 = (operand.toNat + i) % 256 := by omega
  refine ⟨fun mode mem => ?_, address_zeroPage .., address_zeroPageX .., address_zeroPageY ..,
    address_indexedIndirect .., address_indirectIndexed .., fun mode r m operand a => value_of_address r m operand⟩
  simp only [onPageZero, List.mem_cons, List.not_mem_nil, or_false] at mem
  rcases mem with rfl | rfl | rfl | rfl | rfl
  · rw [address_zeroPage, address_zeroPage, operands]
  · rw [address_zeroPageX, address_zeroPageX, same.x, sum]
  · rw [address_zeroPageY, address_zeroPageY, same.y, sum]
  · rw [address_indexedIndirect, address_indexedIndirect, same.x, same.pageZeroPointer,
      Memory.pageZeroPointer_congr _ (sum _)]
  · rw [address_indirectIndexed, address_indirectIndexed, same.y, same.pageZeroPointer,
      Memory.pageZeroPointer_congr _ operands]

/-- A processor with a pointer at the end of page zero and `v` at the start of page one. -/
def pageEnd (v : Byte) : Processor where
  registers := { Registers.initial 0x0600 with x := 0x05, y := 0x01 }
  board := { memory := ((Memory.zero.set 0x00FF 0xFF).set 0x0000 0x12).set 0x0100 v }

theorem samePageZero_pageEnd (v w : Byte) : (pageEnd v).SamePageZero (pageEnd w) := by
  refine ⟨rfl, rfl, fun a inside => ?_⟩
  have other : (0x0100 : Address) ≠ a := by
    rintro rfl
    exact absurd inside (by decide)
  have below (v : Byte) : (pageEnd v).memory.peek a =
      ((Memory.zero.set 0x00FF 0xFF).set 0x0000 0x12).peek a :=
    (Memory.peek_set ..).trans (if_neg other)
  rw [below, below]

/-- The pointer is $12FF, whatever stands at the start of page one and in the high bytes of the operands. -/
theorem samePageZero_resolves_pageEnd : (pageEnd 0x77).SamePageZero (pageEnd 0x99) ∧
    Address.low 0x12FA = Address.low 0x34FA ∧
    zeroPageX.address (pageEnd 0x99).registers (pageEnd 0x99).memory 0x12FA = .ok 0x00FF ∧
    indexedIndirect.address (pageEnd 0x99).registers (pageEnd 0x99).memory 0x12FA = .ok 0x12FF ∧
    indirectIndexed.address (pageEnd 0x77).registers (pageEnd 0x77).memory 0x34FF = .ok 0x1300 := by
  have same := samePageZero_pageEnd 0x77 0x99
  have low : Address.low 0x12FA = Address.low 0x34FA := by decide
  have self : Address.low 0x34FF = Address.low 0x34FF := rfl
  obtain ⟨alike, -, indexed, -, pointed, -⟩ := same.resolves low
  obtain ⟨-, -, -, -, -, behind, -⟩ := same.resolves self
  have x := alike zeroPageX (by decide)
  have pointer := alike indexedIndirect (by decide)
  refine ⟨same, low, x.trans (indexed.trans (congrArg _ ?_)), pointer.trans (pointed.trans (congrArg _ ?_)),
    behind.trans (congrArg _ ?_)⟩
  · decide +kernel
  · decide +kernel
  · decide +kernel

end Processor

end Atari
