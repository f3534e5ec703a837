import Atari.Proofs.Processor.Columns

/-!
# Decimal numbers of several bytes

With the decimal flag, a byte has two decimal digits, and the corrections of an addition and a subtraction are
exact on such bytes: what they leave has two decimal digits again, and its carry is that of the decimal sum or
difference. So numbers of any length can be calculated column by column.

* `Byte.IsPacked`, `Byte.packed`, `Byte.decimalNumber`: the digits of a byte and of several bytes;
* **`Processor.columns_decimal`**: sums and differences of decimal numbers.
-/

namespace Atari

/-! ## Numbers -/

namespace Byte

/-- A byte whose halves are decimal digits. -/
def IsPacked (b : Byte) : Prop := b.toNat / 16 ≤ 9 ∧ b.toNat % 16 ≤ 9

instance (b : Byte) : Decidable b.IsPacked := inferInstanceAs (Decidable (_ ∧ _))

/-- The number that the decimal digits of a byte stand for. -/
def packed (b : Byte) : Nat := 10 * (b.toNat / 16) + b.toNat % 16

/-- The decimal number that some bytes stand for, the lowest first. -/
def decimalNumber (bytes : List Byte) : Nat := Nat.ofDigits 100 (bytes.map packed)

variable {b : Byte}

theorem IsPacked.packed_lt (h : b.IsPacked) : b.packed < 100 := by
  obtain ⟨high, low⟩ := h
  unfold packed
  omega

theorem decimalNumber_lt (bytes : List Byte) (all : ∀ b ∈ bytes, b.IsPacked) :
    decimalNumber bytes < 100 ^ bytes.length := by
  have digits : ∀ d ∈ bytes.map packed, d < 100 := by
    intro d hd
    obtain ⟨b, hb, rfl⟩ := List.mem_map.mp hd
    exact (all b hb).packed_lt
  simpa [decimalNumber] using Nat.ofDigits_lt_base_pow_length (by decide) digits

theorem decimalNumber_complement (bytes : List Byte) (all : ∀ b ∈ bytes, b.IsPacked) :
    Nat.ofDigits 100 (bytes.map fun b => 99 - b.packed) + decimalNumber bytes + 1 = 100 ^ bytes.length := by
  induction bytes with
  | nil => rfl
  | cons b bytes ih =>
    obtain ⟨one, others⟩ := List.forall_mem_cons.mp all
    have low := one.packed_lt
    have high := ih others
    unfold decimalNumber at high ⊢
    rw [List.map_cons, List.map_cons, Nat.ofDigits_cons, Nat.ofDigits_cons, List.length_cons, pow_succ, ← high]
    omega

end Byte

/-- The decimal digits that a decimal calculation adds. -/
def Calculation.decimalAddend : Calculation → Byte → Nat
  | addition, v => v.packed
  | subtraction, v => 99 - v.packed

namespace Processor

open Byte

/-! ## One byte -/

/-- What a column leaves is the sum of its digits, again as digits. -/
structure AddsDecimal (x y : Nat) (carry : Bool) (q : Processor) : Prop where
  digits : q.registers.a.IsPacked
  sum : q.registers.a.packed + 100 * (q.flag .carry).toNat = x + y + carry.toNat
  zero : q.flag .zero = true ↔ q.registers.a = 0
  negative : q.flag .negative = false
  overflow : q.flag .overflow = false

section OneByte

variable {p : Processor} {v : Byte}

theorem setDecimal_adds {x y : Nat} {carry carry' : Bool} {result : Byte} (digits : result.IsPacked)
    (sum : result.packed + 100 * carry'.toNat = x + y + carry.toNat) :
    AddsDecimal x y carry (p.setDecimal result carry') :=
  ⟨digits, sum, beq_iff_eq, rfl, rfl⟩

/-- The first correction of a sum carries from its low digit to its high one, the second from its high digit. -/
theorem corrected_sum {a b : Byte} {carry sum total : Nat} {carry' : Bool} (single : carry ≤ 1)
    (left : a.IsPacked) (right : b.IsPacked)
    (low : sum = if 0x09 < a.toNat % 16 + b.toNat % 16 + carry then a.toNat + b.toNat + carry + 0x06
      else a.toNat + b.toNat + carry)
    (high : total = if 0x99 < sum then sum + 0x60 else sum) (carried : carry' = decide (0x99 < total)) :
    IsPacked (UInt8.ofNat total) ∧
      packed (UInt8.ofNat total) + 100 * carry'.toNat = a.packed + b.packed + carry := by
  obtain ⟨high₁, low₁⟩ := left
  obtain ⟨high₂, low₂⟩ := right
  have result : (UInt8.ofNat total).toNat = total % 256 := UInt8.toNat_ofNat'
  unfold IsPacked packed
  rw [result, carried]
  -- Above 0x99, the second correction leaves more than a byte holds; below, nothing is carried.
  by_cases above : 0x99 < sum
  · rw [if_pos above] at high
    rw [decide_eq_true (by omega), Bool.toNat_true]
    split at low <;> omega
  · rw [if_neg above] at high
    rw [decide_eq_false (by omega), Bool.toNat_false]
    split at low <;> omega

theorem addDecimal_adds (left : p.registers.a.IsPacked) (right : v.IsPacked) :
    AddsDecimal p.registers.a.packed v.packed (p.flag .carry) (p.addDecimal v) := by
  obtain ⟨digits, sum⟩ := corrected_sum (Bool.toNat_le (p.flag .carry)) left right rfl rfl rfl
  exact setDecimal_adds digits sum

/-- The first correction of a difference borrows for its low digit from its high one, the second for its high
digit. -/
theorem corrected_difference {a b : Byte} {borrow : Nat} {difference total : Int} {carry' : Bool}
    (single : borrow ≤ 1) (left : a.IsPacked) (right : b.IsPacked)
    (low : difference = if ((a.toNat % 16 : Nat) - (b.toNat % 16 : Nat) - borrow : Int) < 0
      then (a.toNat - b.toNat - borrow - 0x06 : Int) else (a.toNat - b.toNat - borrow : Int))
    (high : total = if difference < 0 then difference - 0x60 else difference)
    (carried : carry' = decide (0 ≤ total)) :
    IsPacked (UInt8.ofNat (total % 256).toNat) ∧
      packed (UInt8.ofNat (total % 256).toNat) + 100 * carry'.toNat + borrow + b.packed = a.packed + 100 := by
  obtain ⟨high₁, low₁⟩ := left
  obtain ⟨high₂, low₂⟩ := right
  have result : (UInt8.ofNat (total % 256).toNat).toNat = (total % 256).toNat % 256 := UInt8.toNat_ofNat'
  unfold IsPacked packed
  rw [result, carried]
  by_cases below : difference < 0
  · rw [if_pos below] at high
    rw [decide_eq_false (by omega), Bool.toNat_false]
    split at low <;> omega
  · rw [if_neg below] at high
    rw [decide_eq_true (by omega), Bool.toNat_true]
    split at low <;> omega

theorem subtractDecimal_adds (left : p.registers.a.IsPacked) (right : v.IsPacked) :
    AddsDecimal p.registers.a.packed (99 - v.packed) (p.flag .carry) (p.subtractDecimal v) := by
  obtain ⟨digits, difference⟩ := corrected_difference (Bool.toNat_le (!p.flag .carry)) left right rfl rfl rfl
  have bound := right.packed_lt
  refine setDecimal_adds digits ?_
  have complement : (p.flag .carry).toNat + (!p.flag .carry).toNat = 1 := by
    cases p.flag .carry <;> rfl
  omega

end OneByte

variable {c : Calculation} {q last : Processor} {x y : Byte} {carry : Bool} {pairs : List (Byte × Byte)}
  {states : List Processor}

theorem Column.adds_decimal (packed : x.IsPacked ∧ y.IsPacked) (h : Column c true carry x y q) :
    AddsDecimal x.packed (c.decimalAddend y) carry q := by
  obtain ⟨p, rfl, rfl, decimal, result, flags⟩ := h.left
  have adds : AddsDecimal p.registers.a.packed (c.decimalAddend y) (p.flag .carry) (c.apply p y) := by
    cases c with
    | addition =>
      have added : Calculation.addition.apply p y = p.addDecimal y := if_pos decimal
      exact added ▸ addDecimal_adds packed.1 packed.2
    | subtraction =>
      have subtracted : Calculation.subtraction.apply p y = p.subtractDecimal y := if_pos decimal
      exact subtracted ▸ subtractDecimal_adds packed.1 packed.2
  obtain ⟨digits, sum, zero, negative, overflow⟩ := adds
  rw [← result] at digits sum zero
  rw [← flags] at sum zero negative overflow
  exact ⟨digits, sum, zero, negative, overflow⟩

/-! ## Several bytes -/

theorem Columns.decimalNumber_add (h : Columns c true carry pairs (states ++ [last]))
    (all : ∀ w ∈ pairs, w.1.IsPacked ∧ w.2.IsPacked) :
    decimalNumber ((states ++ [last]).map (·.registers.a)) + 100 ^ pairs.length * (last.flag .carry).toNat =
      decimalNumber (pairs.map (·.1)) + Nat.ofDigits 100 (pairs.map fun w => c.decimalAddend w.2) +
        carry.toNat := by
  have sum := h.sum packed c.decimalAddend (fun packed column => (column.adds_decimal packed).sum) all
  simpa only [decimalNumber, List.map_map, Function.comp_def] using sum

theorem Columns.digits (h : Columns c true carry pairs states)
    (all : ∀ w ∈ pairs, w.1.IsPacked ∧ w.2.IsPacked) : ∀ q ∈ states,
      q.registers.a.IsPacked ∧ (q.flag .zero = true ↔ q.registers.a = 0) ∧ q.flag .negative = false ∧
        q.flag .overflow = false := by
  refine h.forall_mem (fun packed column => ?_) all
  obtain ⟨digits, -, zero, negative, overflow⟩ := column.adds_decimal packed
  exact ⟨digits, zero, negative, overflow⟩

theorem Columns.decimalNumber_lt (h : Columns c true carry pairs states)
    (all : ∀ w ∈ pairs, w.1.IsPacked ∧ w.2.IsPacked) :
    decimalNumber (states.map (·.registers.a)) < 100 ^ pairs.length := by
  have digits : ∀ b ∈ states.map (·.registers.a), b.IsPacked := by
    intro b hb
    obtain ⟨q, hq, rfl⟩ := List.mem_map.mp hb
    exact (h.digits all q hq).1
  have inside := Byte.decimalNumber_lt _ digits
  rwa [List.length_map, h.length_eq] at inside

/-- **Sums and differences of decimal numbers of several bytes.** Every column can be calculated. Behind each one
stand two decimal digits, the sign and the overflow are clear, and the zero flag tells whether both digits are
zero. Behind the last one, the digits and the carry of an addition are the exact sum of the numbers and the first
carry. The digits of a subtraction are the difference of the numbers, less one without the first carry, and its
carry tells that the difference is not below zero. -/
theorem columns_decimal (pairs : List (Byte × Byte)) (carry : Bool)
    (all : ∀ w ∈ pairs, w.1.IsPacked ∧ w.2.IsPacked) :
    let x := pairs.map (·.1)
    let y := pairs.map (·.2)
    let n := pairs.length
    let borrow := (!carry).toNat
    (∀ (c : Calculation) (p : Processor) (v : Byte), p.Takes c v → ∃ l q, p.step = .ok l q) ∧
    (∀ c, ∃ states, Columns c true carry pairs states) ∧
    (∀ c states, Columns c true carry pairs states → states.length = n ∧ ∀ q ∈ states,
      q.registers.a.IsPacked ∧ (q.flag .zero = true ↔ q.registers.a = 0) ∧ q.flag .negative = false ∧
        q.flag .overflow = false) ∧
    ∀ states last,
      let r := (states ++ [last]).map (·.registers.a)
      (Columns .addition true carry pairs (states ++ [last]) →
        decimalNumber r + (last.flag .carry).toNat * 100 ^ n =
          decimalNumber x + decimalNumber y + carry.toNat) ∧
      (Columns .subtraction true carry pairs (states ++ [last]) →
        (decimalNumber r : Int) = (decimalNumber x - decimalNumber y - borrow) % 100 ^ n ∧
        (last.flag .carry = true ↔ decimalNumber y + borrow ≤ decimalNumber x)) := by
  intro x y n borrow
  have addends (c : Calculation) : (pairs.map fun w => c.decimalAddend w.2) = y.map c.decimalAddend := by
    rw [List.map_map]
    rfl
  refine ⟨fun c p v takes => takes.step_ok, fun c => exists_columns c true carry pairs,
    fun c states columns => ⟨columns.length_eq, columns.digits all⟩, fun states last => ?_⟩
  refine ⟨fun columns => ?_, fun columns => ?_⟩
  · have sum := columns.decimalNumber_add all
    rw [addends] at sum
    rw [Nat.mul_comm]
    exact sum
  · have sum := columns.decimalNumber_add all
    rw [addends] at sum
    have digits : ∀ b ∈ y, b.IsPacked := by
      intro b hb
      obtain ⟨w, hw, rfl⟩ := List.mem_map.mp hb
      exact (all w hw).2
    have whole := decimalNumber_complement y digits
    rw [List.length_map] at whole
    obtain ⟨difference, carried⟩ := difference_of_complement (columns.decimalNumber_lt all) sum whole
    exact ⟨by exact_mod_cast difference, carried⟩

/-- The decimal sum and difference of 8000 and 1, with the carry. -/
theorem columns_decimal_at8000 :
    let behind c := ((at8000 c true).afterSteps 2).afterSteps 1
    let result c := decimalNumber ([(at8000 c true).afterSteps 1, behind c].map (·.registers.a))
    result .addition = 8002 ∧ result .subtraction = 7999 ∧ (behind .subtraction).flag .carry = true ∧
      (behind .addition).flag .negative = false ∧ (behind .subtraction).flag .overflow = false := by
  intro behind result
  have alone {n k : Nat} (total : n + k * 100 ^ 2 = 8002) : n = 8002 := by omega
  have all : ∀ w ∈ [((0x00, 0x01) : Byte × Byte), (0x80, 0x00)], w.1.IsPacked ∧ w.2.IsPacked := by
    simp [IsPacked]
  obtain ⟨-, -, each, right⟩ := columns_decimal [(0x00, 0x01), (0x80, 0x00)] true all
  have sum := (right _ _).1 (columns_at8000 .addition true)
  obtain ⟨difference, carry⟩ := (right _ _).2 (columns_at8000 .subtraction true)
  obtain ⟨-, -, negative, -⟩ := (each _ _ (columns_at8000 .addition true)).2 (behind .addition) (by simp [behind])
  obtain ⟨-, -, -, overflow⟩ :=
    (each _ _ (columns_at8000 .subtraction true)).2 (behind .subtraction) (by simp [behind])
  refine ⟨?_, ?_, carry.mpr ?_, negative, overflow⟩
  · have total : result .addition + ((behind .addition).flag .carry).toNat * 100 ^ 2 = 8002 :=
      sum.trans (by decide +kernel)
    exact alone total
  · have total : (result .subtraction : Int) = 7999 := difference.trans (by decide +kernel)
    exact_mod_cast total
  · decide +kernel

end Processor

end Atari
