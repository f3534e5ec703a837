import Atari.Processor.Basic
import Atari.Proofs.Board.Storing
import Atari.Proofs.Words

/-!
# The stack

The stack fills page one downwards, and its pointer wraps there. Without hooks on the page, a push changes
one slot alone.

* `Processor.NoStackHooks`: there are no hooks on the page;
* `Processor.stacked`: the bytes that were pushed last;
* **`Processor.stacked_push`**: a byte that is pushed lies on those that were pushed before.
-/

namespace Atari

/-! ## Slots -/

namespace Processor

theorem stackSlot_eq (sp : Byte) : stackSlot sp = .ofBytes sp 1 := by
  rw [stackSlot, Address.ofBytes, UInt16.or_comm]
  rfl

theorem high_stackSlot (sp : Byte) : (stackSlot sp).high = 1 := by
  rw [stackSlot_eq, Address.high_ofBytes]

theorem stackSlot_inj {a b : Byte} : stackSlot a = stackSlot b ↔ a = b := by
  refine ⟨fun h => ?_, congrArg stackSlot⟩
  have := congrArg Address.low h
  rwa [stackSlot_eq, stackSlot_eq, Address.low_ofBytes, Address.low_ofBytes] at this

end Processor

/-- The `n` bytes on a stack whose free slot is given, the one that was pushed last first. -/
def Memory.stacked (m : Memory) : (sp : Byte) → (n : Nat) → List Byte
  | _, 0 => []
  | sp, n + 1 => m.peek (Processor.stackSlot (sp + 1)) :: m.stacked (sp + 1) n

theorem Memory.stacked_set (m : Memory) (sp v : Byte) (k n : Nat) (small : k + n < 256) :
    (m.set (Processor.stackSlot sp) v).stacked (sp + UInt8.ofNat k) n =
      m.stacked (sp + UInt8.ofNat k) n := by
  induction n generalizing k with
  | zero => rfl
  | succ n ih =>
    have next : sp + UInt8.ofNat k + 1 = sp + UInt8.ofNat (k + 1) := by
      rw [UInt8.ofNat_add, ← UInt8.add_assoc]
      rfl
    have other : Processor.stackSlot sp ≠ Processor.stackSlot (sp + UInt8.ofNat (k + 1)) := by
      intro same
      have := congrArg UInt8.toNat (Processor.stackSlot_inj.mp same)
      rw [UInt8.toNat_add, UInt8.toNat_ofNat_of_lt' (by show k + 1 < 256; omega)] at this
      have := sp.toNat_lt
      omega
    rw [stacked, stacked, next, peek_set, if_neg other, ih (k + 1) (by omega)]

namespace Processor

/-- The `n` bytes that were pushed last, the last one first. -/
def stacked (p : Processor) (n : Nat) : List Byte := p.memory.stacked p.registers.sp n

/-- No hooks wait for a store on the stack. -/
def NoStackHooks (p : Processor) : Prop := ∀ a : Address, a.high = 1 → p.board.hooks.on a = []

/-! ## Pushing -/

variable {p : Processor}

theorem NoStackHooks.push_eq (h : p.NoStackHooks) (v : Byte) :
    p.push v = (p.onBoard (·.setByte (stackSlot p.registers.sp) v)).setSp (p.registers.sp - 1) := by
  unfold push store
  dsimp only [onBoard]
  rw [Board.store_of_on_eq_nil (h _ (high_stackSlot _))]

theorem NoStackHooks.push (h : p.NoStackHooks) (v : Byte) : (p.push v).NoStackHooks := by
  rw [h.push_eq]
  exact h

/-- **A byte that is pushed lies on those that were pushed before.** -/
theorem stacked_push (h : p.NoStackHooks) (v : Byte) {n : Nat} (small : n < 256) :
    (p.push v).stacked (n + 1) = v :: p.stacked n := by
  have back : p.registers.sp - 1 + 1 = p.registers.sp := UInt8.sub_add_cancel ..
  have below : (p.memory.set (stackSlot p.registers.sp) v).stacked p.registers.sp n = p.stacked n := by
    have := p.memory.stacked_set p.registers.sp v 0 n (by omega)
    rwa [show p.registers.sp + UInt8.ofNat 0 = p.registers.sp from UInt8.add_zero _] at this
  rw [h.push_eq]
  show Memory.stacked _ (p.registers.sp - 1) (n + 1) = _
  rw [Memory.stacked, back]
  exact (congrArg (· :: _) (Memory.peek_set_self ..)).trans (congrArg (v :: ·) below)

end Processor

end Atari
