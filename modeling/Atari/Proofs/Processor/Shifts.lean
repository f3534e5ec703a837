import Atari.Proofs.Processor.BinarySums

/-!
# Shifts of several bytes

A number of several bytes is shifted byte by byte, and the carry takes a bit from each of them to the next: to the
left from the lowest byte up, to the right from the highest byte down. A shift is a rotation with no carry before it.

* `Change.pass`: the bytes that a pass of changes leaves; `Change.number_pass_left`, `Change.number_pass_right`: the
  numbers that passes of rotations leave;
* `Processor.Changes`: an instruction that changes the byte at a location; `Processor.Changes.left`: what it leaves;
* `Processor.Pass`: such instructions one after the other; **`Processor.Pass.left`**: what they leave;
  `Processor.pass_afterSteps`, `Processor.exists_pass`: where they are found;
* **`Processor.shifts_number`**: numbers are doubled, halved, and rotated to and fro.
-/

namespace Atari

/-! ## Bytes -/

namespace Byte

theorem number_append (low high : List Byte) :
    number (low ++ high) = number low + 256 ^ low.length * number high := by
  rw [number, List.map_append, Nat.ofDigits_append, List.length_map]
  rfl

theorem number_reverse_cons (b : Byte) (bytes : List Byte) :
    number (b :: bytes).reverse = number bytes.reverse + 256 ^ bytes.length * b.toNat := by
  rw [List.reverse_cons, number_append, List.length_reverse, number_cons]
  rfl

end Byte

namespace Change

open Byte

/-- Bytes that are changed one after the other, each with the carry from the one before, and the last carry. -/
def pass : (carry : Bool) → List (Change × Byte) → List Byte × Bool
  | carry, [] => ([], carry)
  | carry, (c, v) :: rest =>
    let (bytes, last) := pass ((c.carryOut? v).getD carry) rest
    (c.apply carry v :: bytes, last)

variable (carry : Bool) (v : Byte) (bytes : List Byte)

theorem length_pass (changes : List (Change × Byte)) : (pass carry changes).1.length = changes.length := by
  induction changes generalizing carry with
  | nil => rfl
  | cons w changes ih => exact congrArg (· + 1) (ih _)

/-- A rotation to the left doubles a byte, with the carry as its lowest bit and its highest bit as the carry. -/
theorem rotateLeft_byte : (rotateLeft.apply carry v).toNat + 256 * (v &&& 0x80 != 0).toNat =
    2 * v.toNat + carry.toNat := by
  have h : ∀ (n : Fin 256) (carry : Bool), (rotateLeft.apply carry (UInt8.ofFin n)).toNat +
      256 * (UInt8.ofFin n &&& 0x80 != 0).toNat = 2 * (UInt8.ofFin n).toNat + carry.toNat := by
    decide +kernel
  exact h v.toFin carry

/-- A rotation to the right halves a byte, with the carry as its highest bit and its lowest bit as the carry. -/
theorem rotateRight_byte : 2 * (rotateRight.apply carry v).toNat + (v &&& 0x01 != 0).toNat =
    v.toNat + 256 * carry.toNat := by
  have h : ∀ (n : Fin 256) (carry : Bool), 2 * (rotateRight.apply carry (UInt8.ofFin n)).toNat +
      (UInt8.ofFin n &&& 0x01 != 0).toNat = (UInt8.ofFin n).toNat + 256 * carry.toNat := by
    decide +kernel
  exact h v.toFin carry

/-- **A pass to the left**, from the lowest byte up, doubles a number. -/
theorem number_pass_left : number (pass carry (bytes.map (rotateLeft, ·))).1 +
    256 ^ bytes.length * (pass carry (bytes.map (rotateLeft, ·))).2.toNat = 2 * number bytes + carry.toNat := by
  induction bytes generalizing carry with
  | nil => simp [pass, number]
  | cons v bytes ih =>
    have low := rotateLeft_byte carry v
    have high := ih (v &&& 0x80 != 0)
    simp only [List.map_cons, pass, carryOut?, Option.getD_some, number_cons, List.length_cons, pow_succ']
    linarith [congrArg (256 * ·) high]

/-- **A pass to the right**, from the highest byte down, halves a number. -/
theorem number_pass_right : 2 * number (pass carry (bytes.map (rotateRight, ·))).1.reverse +
    (pass carry (bytes.map (rotateRight, ·))).2.toNat =
      number bytes.reverse + 256 ^ bytes.length * carry.toNat := by
  induction bytes generalizing carry with
  | nil => simp [pass, number]
  | cons v bytes ih =>
    have high := rotateRight_byte carry v
    have low := ih (v &&& 0x01 != 0)
    have length := length_pass (v &&& 0x01 != 0) (bytes.map (rotateRight, ·))
    rw [List.length_map] at length
    simp only [List.map_cons, pass, carryOut?, Option.getD_some, number_reverse_cons, length, List.length_cons,
      pow_succ]
    linarith [congrArg (256 ^ bytes.length * ·) high]

/-- The rotation to the same side. -/
def rotation : Change → Change
  | shiftLeft | rotateLeft => rotateLeft
  | shiftRight | rotateRight => rotateRight
  | increment => increment
  | decrement => decrement

/-- The carry that a change takes in. -/
def carryIn (c : Change) (carry : Bool) : Bool :=
  match c with
  | shiftLeft | shiftRight => false
  | rotateLeft | rotateRight | increment | decrement => carry

theorem pass_rotation (c : Change) (rest : List (Change × Byte)) :
    pass carry ((c, v) :: rest) = pass (c.carryIn carry) ((c.rotation, v) :: rest) := by
  cases c <;> simp [pass, apply, carryOut?, carryIn, rotation] <;> rfl

/-- A change of the first place, and the rotation to the same side of all others. -/
def along (c : Change) : List Address → List (Change × Address)
  | [] => []
  | a :: places => (c, a) :: places.map (c.rotation, ·)

theorem places_along (c : Change) (places : List Address) : (c.along places).map (·.2) = places := by
  cases places with
  | nil => rfl
  | cons a places => simp [along]

theorem pass_along (c : Change) {places : List Address} (nonempty : places ≠ []) (peek : Address → Byte) :
    pass carry ((c.along places).map fun w => (w.1, peek w.2)) =
      pass (c.carryIn carry) ((places.map peek).map (c.rotation, ·)) := by
  obtain ⟨a, places, rfl⟩ := List.exists_cons_of_ne_nil nonempty
  rw [along, List.map_cons, pass_rotation, List.map_cons, List.map_cons, List.map_map, List.map_map]
  rfl

/-- The instruction that changes a byte anywhere in memory. -/
def absolute : Change → Instruction
  | shiftLeft => ⟨"ASL", 0x0E, .absolute, .change .shiftLeft⟩
  | shiftRight => ⟨"LSR", 0x4E, .absolute, .change .shiftRight⟩
  | rotateLeft => ⟨"ROL", 0x2E, .absolute, .change .rotateLeft⟩
  | rotateRight => ⟨"ROR", 0x6E, .absolute, .change .rotateRight⟩
  | increment => ⟨"INC", 0xEE, .absolute, .change .increment⟩
  | decrement => ⟨"DEC", 0xCE, .absolute, .change .decrement⟩

end Change

/-! ## Instructions -/

namespace Processor

open Byte

/-- The instruction at the command pointer changes the byte at `a`. -/
structure Changes (p : Processor) (c : Change) (a : Address) : Prop where
  operation : p.fetch.instruction.operation = .change c
  place : p.fetch.mode.address p.registers p.memory p.fetch.operand = .ok a

instance (p : Processor) (c : Change) (a : Address) : Decidable (p.Changes c a) :=
  decidable_of_iff
    (p.fetch.instruction.operation = .change c ∧
      p.fetch.mode.address p.registers p.memory p.fetch.operand = .ok a)
    ⟨fun h => ⟨h.1, h.2⟩, fun h => ⟨h.operation, h.place⟩⟩

section OneByte

variable {p q : Processor} {c : Change} {a : Address} {l : LogLine}

namespace Changes

variable (h : p.Changes c a)

include h

theorem mode_ne : p.fetch.mode ≠ .accumulator := by
  intro accumulator
  have place := h.place
  rw [accumulator] at place
  cases place

theorem execute : p.fetch.execute p = .ok .next
    (((p.shiftOut c (p.memory.peek a)).store a (c.apply (p.flag .carry) (p.memory.peek a))).setNZ
      (c.apply (p.flag .carry) (p.memory.peek a))) := by
  have found : p.fetch.target p = .ok a p := by
    unfold Decoded.target
    rw [h.place]
  unfold Decoded.execute
  rw [h.operation]
  dsimp only
  unfold Decoded.changeInPlace
  rw [if_neg h.mode_ne]
  exact Execution.bind_of_ok found

theorem step_ok : ∃ l q, p.step = .ok l q := by
  obtain ⟨l, q, finished⟩ := finish_succeeds p.fetch .next _
  exact ⟨l, q, (step_of_ok h.execute).trans finished⟩

theorem writes : p.fetch.writes p = [(a, c.apply (p.flag .carry) (p.memory.peek a))] := by
  unfold Decoded.writes
  rw [h.operation]
  dsimp only
  rw [if_neg h.mode_ne, Decoded.writes.inMemory, h.place]

/-- **What an instruction that changes a byte leaves**, if no hooks wait for the byte: the changed byte and the bit
that is moved out of it. -/
theorem left (free : p.board.hooks.on a = []) (step : p.step = .ok l q) :
    q.memory = p.memory.set a (c.apply (p.flag .carry) (p.memory.peek a)) ∧
      q.flag .carry = (c.carryOut? (p.memory.peek a)).getD (p.flag .carry) ∧
      q.board.hooks = p.board.hooks := by
  have bus := step_sameBus step
  rw [h.writes, Board.storeList_cons, Board.storeList_nil, Board.store_of_on_eq_nil free] at bus
  refine ⟨bus.memory, ?_, bus.hooks⟩
  rw [step_of_ok h.execute] at step
  rw [flag, (finish_kept step).1]
  cases c <;> rfl

end Changes

end OneByte

/-! ## Passes -/

/-- From one processor to another, the carry stays, and so do the bytes at some places and their hooks. -/
structure Keeps (places : List Address) (p q : Processor) : Prop where
  carry : q.flag .carry = p.flag .carry
  peek : ∀ a ∈ places, q.memory.peek a = p.memory.peek a
  hooks : ∀ a ∈ places, q.board.hooks.on a = p.board.hooks.on a

/-- Instructions that change bytes, one after the other, from one processor to another. Whatever is done besides
keeps the carry and the bytes of the number. -/
inductive Pass (places : List Address) : List (Change × Address) → Processor → Processor → Prop
  | nil {p q : Processor} : Keeps places p q → Pass places [] p q
  | cons {p p' q r : Processor} {c : Change} {a : Address} {l : LogLine} {rest : List (Change × Address)} :
    Keeps places p p' → p'.Changes c a → p'.step = .ok l q → Pass places rest q r →
    Pass places ((c, a) :: rest) p r

variable {places : List Address} {changes : List (Change × Address)} {p q r : Processor}

theorem Keeps.refl (places : List Address) (p : Processor) : Keeps places p p :=
  ⟨rfl, fun _ _ => rfl, fun _ _ => rfl⟩

theorem pass_afterSteps (h : ∀ (i : Nat) (inside : i < changes.length),
    (p.afterSteps i).Changes (changes.get ⟨i, inside⟩).1 (changes.get ⟨i, inside⟩).2) :
    Pass places changes p (p.afterSteps changes.length) := by
  induction changes generalizing p with
  | nil => exact .nil (.refl places p)
  | cons w changes ih =>
    have first : p.Changes w.1 w.2 := h 0 (Nat.zero_lt_succ _)
    obtain ⟨l, q, step⟩ := first.step_ok
    rw [List.length_cons, afterSteps_of_ok step]
    refine .cons (.refl places p) first step (ih fun i inside => ?_)
    have next := h (i + 1) (Nat.succ_lt_succ inside)
    rwa [afterSteps_of_ok step] at next

/-- **What a pass leaves** at different places without hooks: its bytes, and the last carry. -/
theorem Pass.left (h : Pass places changes p q) (inside : ∀ w ∈ changes, w.2 ∈ places)
    (distinct : (changes.map (·.2)).Nodup) (free : ∀ a ∈ places, p.board.hooks.on a = []) :
    let left := Change.pass (p.flag .carry) (changes.map fun w => (w.1, p.memory.peek w.2))
    changes.map (fun w => q.memory.peek w.2) = left.1 ∧ q.flag .carry = left.2 ∧
      (∀ a ∈ places, a ∉ changes.map (·.2) → q.memory.peek a = p.memory.peek a) ∧
      ∀ a ∈ places, q.board.hooks.on a = [] := by
  induction h with
  | nil keeps =>
    exact ⟨rfl, keeps.carry, fun a ha _ => keeps.peek a ha, fun a ha => (keeps.hooks a ha).trans (free a ha)⟩
  | @cons p p' q r c a l rest keeps instruction step _ ih =>
    obtain ⟨here, inside⟩ := List.forall_mem_cons.mp inside
    obtain ⟨alone, distinct⟩ := List.nodup_cons.mp distinct
    have byte : p'.memory.peek a = p.memory.peek a := keeps.peek a here
    obtain ⟨memory, carry, hooks⟩ := instruction.left ((keeps.hooks a here).trans (free a here)) step
    rw [keeps.carry, byte] at memory carry
    -- The instruction leaves the other bytes as they were before it.
    have others (b : Address) (hb : b ∈ places) (other : b ≠ a) : q.memory.peek b = p.memory.peek b := by
      rw [memory, Memory.peek_set, if_neg other.symm]
      exact keeps.peek b hb
    have ahead : (rest.map fun w => (w.1, q.memory.peek w.2)) = rest.map fun w => (w.1, p.memory.peek w.2) := by
      refine List.map_congr_left fun w hw => ?_
      rw [others w.2 (inside w hw)]
      rintro rfl
      exact alone (List.mem_map.mpr ⟨w, hw, rfl⟩)
    obtain ⟨bytes, last, same, clear⟩ :=
      ih inside distinct fun b hb => by rw [hooks, keeps.hooks b hb, free b hb]
    rw [ahead, carry] at bytes last
    have behind : r.memory.peek a = c.apply (p.flag .carry) (p.memory.peek a) := by
      rw [same a here alone, memory, Memory.peek_set_self]
    refine ⟨?_, last, fun b hb outside => ?_, clear⟩
    · rw [List.map_cons, bytes, behind]
      rfl
    · rw [List.map_cons, List.mem_cons, not_or] at outside
      rw [same b hb outside.2, others b hb outside.1]

/-- The processor with another program: at `place`, the instruction that changes the byte at `a`. -/
def beforeChange (p : Processor) (c : Change) (place a : Address) : Processor :=
  let memory := ((p.memory.set place c.absolute.opcode).set (place + 1) a.low).set (place + 1 + 1) a.high
  { p with
    table := .nmos
    registers := { p.registers with pc := place }
    board := { p.board with memory := memory } }

section OtherProgram

variable (p) (c : Change) (place a : Address)

theorem peek_beforeChange (b : Address) : (p.beforeChange c place a).memory.peek b =
    if place + 1 + 1 = b then a.high else if place + 1 = b then a.low else
      if place = b then c.absolute.opcode else p.memory.peek b := by
  unfold beforeChange
  simp only [memory, Memory.peek_set]

theorem changes_beforeChange : (p.beforeChange c place a).Changes c a := by
  have next (b : Address) : b + 1 ≠ b := Address.add_ofNat_ne_self (n := 1) (by decide) (by decide) b
  have second (b : Address) : b + 1 + 1 ≠ b := by
    rw [UInt16.add_assoc]
    exact Address.add_ofNat_ne_self (n := 2) (by decide) (by decide) b
  have opcode : (p.beforeChange c place a).memory.peek place = c.absolute.opcode := by
    rw [peek_beforeChange, if_neg (second place), if_neg (next place), if_pos rfl]
  have low : (p.beforeChange c place a).memory.peek (place + 1) = a.low := by
    rw [peek_beforeChange, if_neg (next (place + 1)), if_pos rfl]
  have high : (p.beforeChange c place a).memory.peek (place + 1 + 1) = a.high := by
    rw [peek_beforeChange, if_pos rfl]
  have entry : InstructionSet.nmos.get? c.absolute.opcode = some c.absolute := by cases c <;> decide +kernel
  have fetched := fetch_of_get? (p := p.beforeChange c place a) (i := c.absolute) (opcode ▸ entry)
  have operand : Disassembly.operand ((p.beforeChange c place a).memory.bytesFrom place 3) = a := by
    rw [Memory.bytesFrom, Memory.bytesFrom, Memory.bytesFrom, Disassembly.operand, low, high,
      Address.ofBytes_low_high]
  constructor
  · rw [fetched]
    cases c <;> rfl
  · rw [fetched]
    cases c <;> exact congrArg Except.ok operand

variable {place}

theorem keeps_beforeChange (opcode : place ∉ places) (low : place + 1 ∉ places)
    (high : place + 1 + 1 ∉ places) : Keeps places p (p.beforeChange c place a) := by
  have status : (p.beforeChange c place a).registers.status = p.registers.status := by
    unfold beforeChange
    rfl
  have hooks : (p.beforeChange c place a).board.hooks = p.board.hooks := by
    unfold beforeChange
    rfl
  refine ⟨congrArg (·.get .carry) status, fun b hb => ?_, fun b _ => congrArg (·.on b) hooks⟩
  have outside {a : Address} (h : a ∉ places) : a ≠ b := fun same => h (same ▸ hb)
  rw [peek_beforeChange, if_neg (outside high), if_neg (outside low), if_neg (outside opcode)]

theorem exists_pass (opcode : place ∉ places) (low : place + 1 ∉ places) (high : place + 1 + 1 ∉ places)
    (changes : List (Change × Address)) : ∃ q, Pass places changes p q := by
  induction changes generalizing p with
  | nil => exact ⟨p, .nil (.refl places p)⟩
  | cons w changes ih =>
    obtain ⟨c, a⟩ := w
    obtain ⟨l, q, step⟩ := (p.changes_beforeChange c place a).step_ok
    obtain ⟨r, rest⟩ := ih q
    exact ⟨r, .cons (p.keeps_beforeChange c a opcode low high) (p.changes_beforeChange c place a) step rest⟩

end OtherProgram

/-! ## Numbers -/

/-- The number whose bytes stand at some places, the lowest first. -/
def numberAt (p : Processor) (places : List Address) : Nat := number (places.map p.memory.peek)

theorem numberAt_lt (p : Processor) (places : List Address) : p.numberAt places < 256 ^ places.length := by
  have inside := number_lt (places.map p.memory.peek)
  rwa [List.length_map] at inside

section Numbers

variable {c : Change} (nonempty : places ≠ []) (distinct : places.Nodup)
  (free : ∀ a ∈ places, p.board.hooks.on a = [])

include nonempty distinct free

theorem Pass.along {order : List Address} (same : order.Perm places) (h : Pass places (c.along order) p q) :
    let left := Change.pass (c.carryIn (p.flag .carry)) ((order.map p.memory.peek).map (c.rotation, ·))
    order.map q.memory.peek = left.1 ∧ q.flag .carry = left.2 ∧ ∀ a ∈ places, q.board.hooks.on a = [] := by
  intro left
  have first : order ≠ [] := fun none => nonempty (none ▸ same).symm.eq_nil
  have inside : ∀ w ∈ c.along order, w.2 ∈ places := fun w hw =>
    same.subset (Change.places_along c order ▸ List.mem_map.mpr ⟨w, hw, rfl⟩)
  obtain ⟨bytes, carry, -, clear⟩ :=
    h.left inside ((Change.places_along c order).symm ▸ same.nodup_iff.mpr distinct) free
  have peeks : ((c.along order).map fun w => q.memory.peek w.2) = order.map q.memory.peek := by
    conv_rhs => rw [← Change.places_along c order, List.map_map]
    rfl
  rw [Change.pass_along _ c first] at bytes carry
  exact ⟨peeks ▸ bytes, carry, clear⟩

theorem Pass.number_left (side : c.rotation = .rotateLeft) (h : Pass places (c.along places) p q) :
    q.numberAt places + 256 ^ places.length * (q.flag .carry).toNat =
      2 * p.numberAt places + (c.carryIn (p.flag .carry)).toNat := by
  obtain ⟨bytes, carry, -⟩ := h.along nonempty distinct free (.refl places)
  have doubled := Change.number_pass_left (c.carryIn (p.flag .carry)) (places.map p.memory.peek)
  rw [side] at bytes carry
  rw [List.length_map] at doubled
  rw [numberAt, bytes, carry]
  exact doubled

theorem Pass.number_right (side : c.rotation = .rotateRight) (h : Pass places (c.along places.reverse) p q) :
    2 * q.numberAt places + (q.flag .carry).toNat =
      p.numberAt places + 256 ^ places.length * (c.carryIn (p.flag .carry)).toNat := by
  obtain ⟨bytes, carry, -⟩ := h.along nonempty distinct free (List.reverse_perm places)
  have halved := Change.number_pass_right (c.carryIn (p.flag .carry)) (places.reverse.map p.memory.peek)
  rw [side] at bytes carry
  rw [numberAt, ← List.reverse_reverse (places.map q.memory.peek), ← List.map_reverse, bytes, carry]
  rw [numberAt, ← List.reverse_reverse (places.map p.memory.peek), ← List.map_reverse]
  simpa using halved

end Numbers

/-- The sum of a number with itself, cut to `n` bytes, and the bit that is cut off. -/
theorem doubled_of_sum {n x y : Nat} {carry : Bool} (some : n ≠ 0) (hx : x < 256 ^ n) (hy : y < 256 ^ n)
    (sum : y + 256 ^ n * carry.toNat = 2 * x) :
    y = 2 * x % 256 ^ n ∧ carry = x.testBit (8 * n - 1) := by
  have half : 256 ^ n = 2 * 2 ^ (8 * n - 1) := by
    rw [← pow_succ', Nat.sub_add_cancel (by omega), pow_mul]
    rfl
  constructor
  · rw [← sum, Nat.add_mul_mod_self_left, Nat.mod_eq_of_lt hy]
  · rw [half] at hx hy sum
    rw [Nat.testBit_eq_decide_div_mod_eq]
    cases carry with
    | false =>
      rw [Nat.div_eq_of_lt (by simp at sum; omega)]
      rfl
    | true =>
      have one : x / 2 ^ (8 * n - 1) = 1 := Nat.div_eq_of_lt_le (by simp at sum; omega) (by omega)
      rw [one]
      rfl

theorem halved_of_sum {x y : Nat} {carry : Bool} (sum : 2 * y + carry.toNat = x) :
    y = x / 2 ∧ carry = x.testBit 0 := by
  rw [Nat.testBit_zero]
  cases carry <;> simp at sum ⊢ <;> omega

/-- **Numbers of several bytes are shifted byte by byte.** No instruction that changes a byte fails, and a pass of
them can be executed wherever there is room for one. At different places without hooks, a shift to the left from
the lowest byte up doubles the number, and the carry tells its highest bit; a shift to the right from the highest
byte down halves it, and the carry tells its lowest bit. A rotation to the left and one to the right leave the number
and the carry as they were. -/
theorem shifts_number (nonempty : places ≠ []) (distinct : places.Nodup)
    (free : ∀ a ∈ places, p.board.hooks.on a = []) :
    let n := places.length
    let x := p.numberAt places
    (∀ (p : Processor) (c : Change) (a : Address), p.Changes c a → ∃ l q, p.step = .ok l q) ∧
    (∀ place : Address, place ∉ places → place + 1 ∉ places → place + 1 + 1 ∉ places →
      ∀ changes, ∃ q, Pass places changes p q) ∧
    (∀ q, Pass places (Change.shiftLeft.along places) p q →
      q.numberAt places = 2 * x % 256 ^ n ∧ q.flag .carry = x.testBit (8 * n - 1)) ∧
    (∀ q, Pass places (Change.shiftRight.along places.reverse) p q →
      q.numberAt places = x / 2 ∧ q.flag .carry = x.testBit 0) ∧
    ∀ q r, Pass places (Change.rotateLeft.along places) p q →
      Pass places (Change.rotateRight.along places.reverse) q r →
      r.numberAt places = x ∧ r.flag .carry = p.flag .carry := by
  intro n x
  have some : n ≠ 0 := fun none => nonempty (List.eq_nil_of_length_eq_zero none)
  refine ⟨fun p c a changes => changes.step_ok, fun place opcode low high => p.exists_pass opcode low high,
    fun q left => ?_, fun q right => ?_, fun q r left right => ?_⟩
  · exact doubled_of_sum some (p.numberAt_lt places) (q.numberAt_lt places)
      (left.number_left nonempty distinct free rfl)
  · exact halved_of_sum (right.number_right nonempty distinct free rfl)
  · obtain ⟨-, -, clear⟩ := left.along nonempty distinct free (.refl places)
    have doubled := left.number_left nonempty distinct free rfl
    have halved := right.number_right nonempty distinct clear rfl
    -- Both sums have the rotated number and the bit that is moved out, so the lowest bit and the rest agree.
    have total : 2 * r.numberAt places + (r.flag .carry).toNat = 2 * x + (p.flag .carry).toNat :=
      halved.trans doubled
    cases hr : r.flag .carry <;> cases hp : p.flag .carry <;> rw [hr, hp] at total <;> simp at total ⊢ <;> omega

/-- A processor with the number $8181 at $0080, and the carry, before a program. -/
@[irreducible] def before8181 (program : List Byte) : Processor :=
  let number := (Memory.zero.set 0x0080 0x81).set 0x0081 0x81
  let memory := program.zipIdx.foldl (fun m w => m.set (0x0600 + UInt16.ofNat w.2) w.1) number
  { registers := { Registers.initial 0x0600 with status := { Status.ofByte 0x34 with carry := true } }
    board := { memory } }

theorem free_before8181 (program : List Byte) (a : Address) : (before8181 program).board.hooks.on a = [] := by
  unfold before8181
  rfl

/-- $8181 is shifted to the left, to the right, and rotated to and fro. -/
theorem shifts_number_8181 :
    let places : List Address := [0x0080, 0x0081]
    let left := (before8181 [0x06, 0x80, 0x26, 0x81]).afterSteps 2
    let right := (before8181 [0x46, 0x81, 0x66, 0x80]).afterSteps 2
    let there := (before8181 [0x26, 0x80, 0x26, 0x81, 0x66, 0x81, 0x66, 0x80]).afterSteps 2
    let back := there.afterSteps 2
    places ≠ [] ∧ places.Nodup ∧
      (left.numberAt places = 0x0302 ∧ left.flag .carry = true) ∧
      (right.numberAt places = 0x40C0 ∧ right.flag .carry = true) ∧
      back.numberAt places = 0x8181 ∧ back.flag .carry = true := by
  intro places left right there back
  have nonempty : places ≠ [] := by decide
  have distinct : places.Nodup := by decide
  have stored : (before8181 [0x06, 0x80, 0x26, 0x81]).numberAt places = 0x8181 ∧
      (before8181 [0x46, 0x81, 0x66, 0x80]).numberAt places = 0x8181 ∧
      (before8181 [0x26, 0x80, 0x26, 0x81, 0x66, 0x81, 0x66, 0x80]).numberAt places = 0x8181 ∧
      (before8181 [0x26, 0x80, 0x26, 0x81, 0x66, 0x81, 0x66, 0x80]).flag .carry = true := by
    decide +kernel
  obtain ⟨toLeft, toRight, toAndFro, carry⟩ := stored
  obtain ⟨-, -, doubles, -⟩ := shifts_number nonempty distinct fun a _ =>
    free_before8181 [0x06, 0x80, 0x26, 0x81] a
  obtain ⟨-, -, -, halves, -⟩ := shifts_number nonempty distinct fun a _ =>
    free_before8181 [0x46, 0x81, 0x66, 0x80] a
  obtain ⟨-, -, -, -, returns⟩ := shifts_number nonempty distinct fun a _ =>
    free_before8181 [0x26, 0x80, 0x26, 0x81, 0x66, 0x81, 0x66, 0x80] a
  obtain ⟨number, bit⟩ := doubles left (pass_afterSteps (by decide +kernel))
  obtain ⟨number', bit'⟩ := halves right (pass_afterSteps (by decide +kernel))
  obtain ⟨same, same'⟩ :=
    returns there back (pass_afterSteps (by decide +kernel)) (pass_afterSteps (by decide +kernel))
  rw [toLeft] at number bit
  rw [toRight] at number' bit'
  exact ⟨nonempty, distinct, ⟨number.trans (by decide), bit.trans (by decide)⟩,
    ⟨number', bit'.trans (by decide)⟩, same.trans toAndFro, same'.trans carry⟩

end Processor

end Atari
