import Atari.Proofs.Processor.Documented
import Atari.Proofs.Processor.Stack

/-!
# Last in, first out

The stack is a ring of 256 slots. A byte that is pushed lies on all others, and the one that lay deepest is gone. Pulling
reads the bytes from the last one on and changes none of them.

* `Processor.pushAll`: bytes pushed one after the other; `Processor.pushAll_eq`: the bus refuses none;
* `Processor.pullMany`, `Processor.pullMany_eq`: bytes pulled one after the other;
* **`Processor.last_in_first_out`**: the bytes that were pushed come back in reverse.
-/

namespace Atari

/-! ## The page as a stack -/

namespace Memory

variable (m : Memory)

theorem length_stacked (sp : Byte) (n : Nat) : (m.stacked sp n).length = n := by
  induction n generalizing sp with
  | zero => rfl
  | succ n ih => rw [stacked, List.length_cons, ih]

theorem take_stacked {k n : Nat} (h : k ≤ n) (sp : Byte) : (m.stacked sp n).take k = m.stacked sp k := by
  induction n generalizing k sp with
  | zero =>
    rw [Nat.le_zero.mp h]
    rfl
  | succ n ih =>
    cases k with
    | zero => rfl
    | succ k => rw [stacked, stacked, List.take_succ_cons, ih (Nat.le_of_succ_le_succ h)]

end Memory

theorem Address.high_eq_one_iff (a : Address) : a.high = 1 ↔ 0x0100 ≤ a.toNat ∧ a.toNat ≤ 0x01FF := by
  have parts := toNat_ofBytes a.low a.high
  have := a.low.toNat_lt
  rw [ofBytes_low_high] at parts
  rw [← UInt8.toNat_inj, show UInt8.toNat 1 = 1 from rfl]
  omega

namespace Processor

variable {p : Processor}

/-! ## Pushing -/

/-- Pushes a byte, unless the bus refuses it. -/
def pushByte (p : Processor) (v : Byte) : Except MemoryError Processor :=
  (p.board.poke (stackSlot p.registers.sp) [v]).map fun b =>
    { p with board := b }.setSp (p.registers.sp - 1)

/-- Pushes bytes one after the other, up to one that the bus refuses. -/
def pushAll (p : Processor) (data : List Byte) : Except MemoryError Processor := data.foldlM pushByte p

theorem pushByte_eq (p : Processor) (v : Byte) : p.pushByte v = .ok (p.push v) := by
  rw [pushByte, Board.poke_byte]
  rfl

theorem pushAll_eq (p : Processor) (data : List Byte) : p.pushAll data = .ok (data.foldl push p) := by
  unfold pushAll
  induction data generalizing p with
  | nil => rfl
  | cons v data ih =>
    rw [List.foldlM_cons, pushByte_eq]
    exact ih (p.push v)

theorem stacked_push_page (h : p.NoStackHooks) (v : Byte) :
    (p.push v).stacked 256 = (v :: p.stacked 256).take 256 := by
  rw [stacked_push h v (show 255 < 256 by decide), List.take_succ_cons]
  exact congrArg (v :: ·) (Memory.take_stacked _ (by decide) _).symm

/-- **The whole page behind many pushes.** -/
theorem stacked_foldl_push (h : p.NoStackHooks) (data : List Byte) :
    (data.foldl push p).stacked 256 = (data.reverse ++ p.stacked 256).take 256 := by
  induction data generalizing p with
  | nil => exact (List.take_of_length_le (Nat.le_of_eq (Memory.length_stacked ..))).symm
  | cons v data ih =>
    -- The bytes that are pushed later reach no deeper than the page behind the first push.
    rw [List.foldl_cons, ih (h.push v), stacked_push_page h, List.take_append, List.take_take,
      Nat.min_eq_left (Nat.sub_le ..), ← List.take_append, List.reverse_cons, List.append_assoc]
    rfl

/-- Many pushes change page one and the stack pointer alone. -/
theorem foldl_push_eq (h : p.NoStackHooks) (data : List Byte) : ∃ m : Memory,
    data.foldl push p =
      (p.onBoard fun b => { b with memory := m }).setSp (p.registers.sp - UInt8.ofNat data.length) ∧
    ∀ a : Address, a.high ≠ 1 → m.peek a = p.memory.peek a := by
  induction data generalizing p with
  | nil =>
    refine ⟨p.memory, ?_, fun _ _ => rfl⟩
    show p = p.setSp (p.registers.sp - 0)
    rw [UInt8.sub_zero]
    rfl
  | cons v data ih =>
    obtain ⟨m, pushed, same⟩ := ih (h.push v)
    have next : p.registers.sp - UInt8.ofNat (data.length + 1) = p.registers.sp - 1 - UInt8.ofNat data.length := by
      rw [UInt8.ofNat_add]
      grind
    refine ⟨m, ?_, fun a outside => ?_⟩
    · rw [List.foldl_cons, pushed, h.push_eq, List.length_cons, next]
      rfl
    · have other : stackSlot p.registers.sp ≠ a := fun e => outside (e ▸ high_stackSlot _)
      rw [same a outside, h.push_eq]
      exact (Memory.peek_set ..).trans (if_neg other)

/-! ## Pulling -/

/-- Pulls bytes one after the other. -/
def pullMany (p : Processor) : (n : Nat) → List Byte × Processor
  | 0 => ([], p)
  | n + 1 =>
    let (v, p) := p.pull
    let (data, p) := p.pullMany n
    (v :: data, p)

theorem pullMany_eq (p : Processor) (n : Nat) :
    p.pullMany n = (p.stacked n, p.setSp (p.registers.sp + UInt8.ofNat n)) := by
  induction n generalizing p with
  | zero =>
    show ([], p) = ([], p.setSp (p.registers.sp + 0))
    rw [UInt8.add_zero]
    rfl
  | succ n ih =>
    have next : p.registers.sp + UInt8.ofNat (n + 1) = p.registers.sp + 1 + UInt8.ofNat n := by
      rw [Nat.add_comm, UInt8.ofNat_add, ← UInt8.add_assoc]
      rfl
    show (p.top :: (p.drop.pullMany n).1, (p.drop.pullMany n).2) = _
    rw [ih p.drop, next]
    rfl

/-- **The bytes that were pushed come back in reverse.** The bus takes them all, however many they are. They change page
one and the stack pointer alone, which moves down by their number and wraps around. Up to a page of them can be pulled
again, the last one first. Pulling moves the stack pointer up and changes nothing else, so that it is where it was when
all the bytes of at most one page have come back. -/
theorem last_in_first_out (h : p.NoStackHooks) (data : List Byte) : ∃ q, p.pushAll data = .ok q ∧
    q.registers.sp = p.registers.sp - UInt8.ofNat data.length ∧
    (∃ m : Memory, q = (p.onBoard fun b => { b with memory := m }).setSp q.registers.sp) ∧
    (∀ a : Address, ¬(0x0100 ≤ a.toNat ∧ a.toNat ≤ 0x01FF) → q.memory.peek a = p.memory.peek a) ∧
    (∀ k ≤ min data.length 256,
      q.pullMany k = (data.reverse.take k, q.setSp (q.registers.sp + UInt8.ofNat k))) ∧
    (data.length ≤ 256 → (q.pullMany (min data.length 256)).2.registers = p.registers) := by
  obtain ⟨m, pushed, same⟩ := foldl_push_eq h data
  have page := stacked_foldl_push h data
  rw [pushed] at page
  refine ⟨_, (pushAll_eq p data).trans (congrArg _ pushed), rfl, ⟨m, rfl⟩, fun a outside => ?_, fun k few => ?_,
    fun small => ?_⟩
  · exact same a fun inside => outside (a.high_eq_one_iff.mp inside)
  · have bytes := congrArg (List.take k) page
    rw [stacked, Memory.take_stacked _ (by omega), List.take_take, Nat.min_eq_left (by omega),
      List.take_append_of_le_length (by rw [List.length_reverse]; omega)] at bytes
    rw [pullMany_eq]
    exact congrArg (·, _) bytes
  · rw [pullMany_eq, Nat.min_eq_left small]
    show { p.registers with sp := p.registers.sp - UInt8.ofNat data.length + UInt8.ofNat data.length } = p.registers
    rw [UInt8.sub_add_cancel]

/-- Three hundred bytes from slot two on go around the page, and the first 44 of them are gone. -/
theorem last_in_first_out_around :
    let p := ({} : Processor).setSp 0x02
    let data := (List.range 300).map UInt8.ofNat
    p.NoStackHooks ∧ ∃ q, p.pushAll data = .ok q ∧ q.registers.sp = 0xD6 ∧
      (q.pullMany 256).1 = ((List.range' 44 256).map UInt8.ofNat).reverse ∧ (q.pullMany 256).2.registers.sp = 0xD6 := by
  intro p data
  have clear : p.NoStackHooks := fun _ _ => rfl
  have count : data.length = 300 := by simp [data]
  obtain ⟨q, pushed, sp, -, -, pulled, -⟩ := last_in_first_out clear data
  have pointer : q.registers.sp = 0xD6 := by
    rw [sp, count]
    decide
  have page := pulled 256 (by rw [count]; decide)
  refine ⟨clear, q, pushed, pointer, ?_, ?_⟩
  · rw [page]
    show data.reverse.take 256 = _
    decide +kernel
  · rw [page, pointer]
    rfl

end Processor

end Atari
