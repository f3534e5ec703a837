import Atari.Proofs.Processor.Columns

/-!
# Binary numbers of several bytes

Column by column, additions and subtractions without the decimal flag are exact: the last carry tells what does
not fit into the bytes of the result, and the last overflow what does not fit into their two's complement.

* `Byte.number`, `Byte.signedNumber`: what several bytes stand for; `Byte.Fits`: what fits into them;
* `Processor.Columns.number_add`, `Processor.Columns.signed`: several bytes, of which a subtraction adds the
  complement;
* **`Processor.columns_binary`**: sums and differences of numbers.
-/

namespace Atari

/-! ## Numbers -/

namespace Byte

/-- The number that some bytes stand for, the lowest first. -/
def number (bytes : List Byte) : Nat := Nat.ofDigits 256 (bytes.map UInt8.toNat)

/-- The number that some bytes stand for in two's complement. -/
def signedNumber (bytes : List Byte) : Int :=
  if 2 * number bytes < 256 ^ bytes.length then number bytes else number bytes - 256 ^ bytes.length

/-- Whether a number has a two's complement of `n` bytes. -/
def Fits (n : Nat) (v : Int) : Prop := -256 ^ n ≤ 2 * v ∧ 2 * v < 256 ^ n

instance (n : Nat) (v : Int) : Decidable (Fits n v) := inferInstanceAs (Decidable (_ ∧ _))

variable (a b : Byte) {bytes : List Byte} {n : Nat}

theorem number_cons (bytes : List Byte) : number (b :: bytes) = b.toNat + 256 * number bytes :=
  Nat.ofDigits_cons ..

theorem number_lt (bytes : List Byte) : number bytes < 256 ^ bytes.length := by
  have digits : ∀ d ∈ bytes.map UInt8.toNat, d < 256 := by
    intro d hd
    obtain ⟨b, -, rfl⟩ := List.mem_map.mp hd
    exact b.toNat_lt
  simpa [number] using Nat.ofDigits_lt_base_pow_length (by decide) digits

theorem exists_half (more : 0 < n) : ∃ half : Nat, (256 : Int) ^ n = 2 * half := by
  obtain ⟨n, rfl⟩ := Nat.exists_eq_add_one_of_ne_zero (Nat.pos_iff_ne_zero.mp more)
  refine ⟨128 * 256 ^ n, ?_⟩
  rw [pow_succ]
  push_cast
  ring

theorem signedNumber_singleton : signedNumber [b] = b.signed := by
  have bound : (128 : Byte).toNat = 128 := rfl
  have single : number [b] = b.toNat := Nat.ofDigits_singleton ..
  simp only [signedNumber, signed, single, UInt8.lt_iff_toNat_lt, bound, List.length_singleton, pow_one]
  split <;> split <;> omega

theorem signedNumber_cons (more : bytes ≠ []) :
    signedNumber (b :: bytes) = b.toNat + 256 * signedNumber bytes := by
  obtain ⟨half, even⟩ := exists_half (List.length_pos_iff.mpr more)
  have low := b.toNat_lt
  unfold signedNumber
  zify
  rw [number_cons, List.length_cons, pow_succ, even]
  push_cast
  split <;> split <;> omega

theorem fits_cons (more : 0 < n) {r : Nat} (low : r < 256) (v : Int) :
    Fits (n + 1) (r + 256 * v) ↔ Fits n v := by
  obtain ⟨half, even⟩ := exists_half more
  unfold Fits
  rw [pow_succ, even]
  omega

/-! ## The highest bit -/

theorem isNegative_eq : b.isNegative = b.toNat.testBit 7 := by
  have h : ∀ n : Fin 256, isNegative (UInt8.ofFin n) = (UInt8.ofFin n).toNat.testBit 7 := by decide +kernel
  exact h b.toFin

theorem isNegative_eq_decide : b.isNegative = decide (128 ≤ b.toNat) := by
  have h : ∀ n : Fin 256, isNegative (UInt8.ofFin n) = decide (128 ≤ (UInt8.ofFin n).toNat) := by
    decide +kernel
  exact h b.toFin

theorem isNegative_xor : isNegative (a ^^^ b) = (a.isNegative ^^ b.isNegative) := by
  rw [isNegative_eq, isNegative_eq, isNegative_eq, UInt8.toNat_xor, Nat.testBit_xor]

theorem isNegative_and : isNegative (a &&& b) = (a.isNegative && b.isNegative) := by
  rw [isNegative_eq, isNegative_eq, isNegative_eq, UInt8.toNat_and, Nat.testBit_and]

theorem signed_eq : b.signed = b.toNat - if 128 ≤ b.toNat then 256 else 0 := by
  have bound : (128 : Byte).toNat = 128 := rfl
  simp only [signed, UInt8.lt_iff_toNat_lt, bound]
  split <;> split <;> omega

theorem signed_neg_iff : b.signed < 0 ↔ b.isNegative = true := by
  have := b.toNat_lt
  rw [signed_eq, isNegative_eq_decide, decide_eq_true_iff]
  split <;> omega

/-! ## Complements -/

theorem toNat_complement : (~~~b).toNat = 255 - b.toNat := UInt8.toNat_not b

theorem signed_complement : (~~~b).signed = -1 - b.signed := by
  have low := b.toNat_lt
  rw [signed_eq, signed_eq, toNat_complement]
  split <;> split <;> omega

theorem number_complement (bytes : List Byte) :
    number (bytes.map (~~~·)) + number bytes + 1 = 256 ^ bytes.length := by
  induction bytes with
  | nil => rfl
  | cons b bytes ih =>
    have low := b.toNat_lt
    rw [List.map_cons, number_cons, number_cons, List.length_cons, pow_succ, toNat_complement, ← ih]
    omega

theorem signedNumber_complement (more : bytes ≠ []) :
    signedNumber (bytes.map (~~~·)) = -1 - signedNumber bytes := by
  induction bytes with
  | nil => exact absurd rfl more
  | cons b bytes ih =>
    by_cases last : bytes = []
    · rw [last, List.map_singleton, signedNumber_singleton, signedNumber_singleton, signed_complement]
    · have low := b.toNat_lt
      have others : bytes.map (~~~·) ≠ [] := by simpa using last
      rw [List.map_cons, signedNumber_cons _ others, signedNumber_cons _ last, ih last, toNat_complement]
      omega

end Byte

/-- The byte that a binary calculation adds. -/
def Calculation.addend : Calculation → Byte → Byte
  | addition, v => v
  | subtraction, v => ~~~v

namespace Processor

open Byte

/-! ## One byte -/

section OneByte

variable (p : Processor) (v : Byte)

theorem addBinary_carry : (p.addBinary v).flag .carry =
    decide (0xFF < p.registers.a.toNat + v.toNat + (p.flag .carry).toNat) := rfl

theorem addBinary_negative :
    (p.addBinary v).flag .negative = (p.addBinary v).registers.a.isNegative := rfl

theorem addBinary_overflow : (p.addBinary v).flag .overflow = isNegative
    ((p.registers.a ^^^ (p.addBinary v).registers.a) &&& (v ^^^ (p.addBinary v).registers.a)) := rfl

theorem addBinary_sum : (p.addBinary v).registers.a.toNat + 256 * ((p.addBinary v).flag .carry).toNat =
    p.registers.a.toNat + v.toNat + (p.flag .carry).toNat := by
  have left := p.registers.a.toNat_lt
  have right := v.toNat_lt
  have single := Bool.toNat_le (p.flag .carry)
  have result : (p.addBinary v).registers.a.toNat =
      (p.registers.a.toNat + v.toNat + (p.flag .carry).toNat) % 256 := UInt8.toNat_ofNat'
  rw [result, addBinary_carry]
  by_cases carries : 0xFF < p.registers.a.toNat + v.toNat + (p.flag .carry).toNat
  · rw [decide_eq_true carries, Bool.toNat_true]
    omega
  · rw [decide_eq_false carries, Bool.toNat_false]
    omega

theorem addBinary_overflow_iff : (p.addBinary v).flag .overflow = true ↔
    ¬Fits 1 (p.registers.a.signed + v.signed + (p.flag .carry).toNat) := by
  have sum := p.addBinary_sum v
  have left := p.registers.a.toNat_lt
  have right := v.toNat_lt
  have single := Bool.toNat_le (p.flag .carry)
  have single' := Bool.toNat_le ((p.addBinary v).flag .carry)
  have low := (p.addBinary v).registers.a.toNat_lt
  rw [addBinary_overflow, isNegative_and, isNegative_xor, isNegative_xor, isNegative_eq_decide,
    isNegative_eq_decide, isNegative_eq_decide, signed_eq, signed_eq, Fits]
  -- The result has the wrong sign exactly if its highest bit is in neither of the bytes, or in both but not in it.
  by_cases ha : 128 ≤ p.registers.a.toNat <;> by_cases hv : 128 ≤ v.toNat <;>
    by_cases hr : 128 ≤ (p.addBinary v).registers.a.toNat <;> simp [ha, hv, hr] <;> omega

end OneByte

variable {c : Calculation} {p q : Processor} {x y v : Byte} {decimal carry : Bool} {pairs : List (Byte × Byte)}
  {states : List Processor} {last : Processor}

theorem apply_eq_addBinary (binary : p.flag .decimal = false) :
    c.apply p v = p.addBinary (c.addend v) := by
  cases c
  · exact if_neg (Bool.eq_false_iff.mp binary)
  · exact if_neg (Bool.eq_false_iff.mp binary)

/-- What a column leaves is the sum of its bytes. -/
structure Adds (x y : Byte) (carry : Bool) (q : Processor) : Prop where
  sum : q.registers.a.toNat + 256 * (q.flag .carry).toNat = x.toNat + y.toNat + carry.toNat
  overflow : q.flag .overflow = true ↔ ¬Fits 1 (x.signed + y.signed + carry.toNat)
  negative : q.flag .negative = true ↔ q.registers.a.signed < 0

theorem Column.adds (h : Column c false carry x y q) : Adds x (c.addend y) carry q := by
  obtain ⟨p, rfl, rfl, binary, result, flags⟩ := h.left
  rw [apply_eq_addBinary binary] at result flags
  refine ⟨?_, ?_, ?_⟩
  · rw [result, flags, addBinary_sum]
  · rw [flags, addBinary_overflow_iff]
  · rw [flags, result, addBinary_negative, signed_neg_iff]

/-! ## Several bytes -/

theorem Columns.number_add (h : Columns c false carry pairs (states ++ [last])) :
    number ((states ++ [last]).map (·.registers.a)) + 256 ^ pairs.length * (last.flag .carry).toNat =
      number (pairs.map (·.1)) + number (pairs.map fun w => c.addend w.2) + carry.toNat := by
  have sum := h.sum UInt8.toNat (fun v => (c.addend v).toNat)
    (fun (_ : True) column => column.adds.sum) fun _ _ => trivial
  simpa only [number, List.map_map, Function.comp_def] using sum

/-- The last column tells the overflow and the sign of the whole: the columns below it change neither. -/
theorem Columns.signed (h : Columns c false carry pairs (states ++ [last])) :
    (last.flag .overflow = true ↔ ¬Fits pairs.length
      (signedNumber (pairs.map (·.1)) + signedNumber (pairs.map fun w => c.addend w.2) + carry.toNat)) ∧
    (last.flag .negative = true ↔ signedNumber ((states ++ [last]).map (·.registers.a)) < 0) := by
  induction states generalizing carry pairs with
  | nil =>
    cases h with
    | cons first rest =>
      cases rest
      simp only [List.nil_append, List.map_cons, List.map_nil, signedNumber_singleton]
      exact ⟨first.adds.overflow, first.adds.negative⟩
  | cons q states ih =>
    cases h with
    | @cons _ x y _ pairs _ first rest =>
      have some := rest.ne_nil
      obtain ⟨overflow, negative⟩ := ih rest
      have left : pairs.map (·.1) ≠ [] := by simpa using some
      have right : (pairs.map fun w => c.addend w.2) ≠ [] := by simpa using some
      have result : (states ++ [last]).map (·.registers.a) ≠ [] := by simp
      have low := q.registers.a.toNat_lt
      have sum := first.adds.sum
      rw [List.cons_append, List.map_cons, List.map_cons, List.map_cons, List.length_cons,
        signedNumber_cons _ left, signedNumber_cons _ right, signedNumber_cons _ result]
      constructor
      -- The lowest byte of the result adds less than one unit of the bytes above it, so it cannot change the fit.
      · rw [overflow, ← fits_cons (List.length_pos_iff.mpr some) low]
        have regroup : ((x.toNat + 256 * signedNumber (pairs.map (·.1))) +
            ((c.addend y).toNat + 256 * signedNumber (pairs.map fun w => c.addend w.2)) + carry.toNat : Int) =
          q.registers.a.toNat + 256 * (signedNumber (pairs.map (·.1)) +
            signedNumber (pairs.map fun w => c.addend w.2) + (q.flag .carry).toNat) := by
          zify at sum
          linarith
        rw [regroup]
      · rw [negative]
        omega

theorem Columns.length_result (h : Columns c decimal carry pairs states) :
    (states.map (·.registers.a)).length = pairs.length := by
  rw [List.length_map, h.length_eq]

/-- **Sums and differences of numbers of several bytes.** Every column can be calculated, whatever stands in it.
Behind the last one, the bytes and the carry of an addition are the exact sum of the numbers and the first carry.
The bytes of a subtraction are the difference of the numbers, less one without the first carry, and its carry tells
that the difference is not below zero. In both, the overflow tells that the result does not fit when all numbers
are in two's complement, and the sign is that of the bytes. -/
theorem columns_binary (pairs : List (Byte × Byte)) (carry : Bool) :
    let x := pairs.map (·.1)
    let y := pairs.map (·.2)
    let n := pairs.length
    let borrow := (!carry).toNat
    (∀ (c : Calculation) (p : Processor) (v : Byte), p.Takes c v → ∃ l q, p.step = .ok l q) ∧
    (∀ c, ∃ states, Columns c false carry pairs states) ∧
    ∀ states last,
      let r := (states ++ [last]).map (·.registers.a)
      (Columns .addition false carry pairs (states ++ [last]) →
        r.length = n ∧
        number r + (last.flag .carry).toNat * 256 ^ n = number x + number y + carry.toNat ∧
        (last.flag .overflow = true ↔ ¬Fits n (signedNumber x + signedNumber y + carry.toNat)) ∧
        (last.flag .negative = true ↔ signedNumber r < 0)) ∧
      (Columns .subtraction false carry pairs (states ++ [last]) →
        r.length = n ∧
        (number r : Int) = (number x - number y - borrow) % 256 ^ n ∧
        (last.flag .carry = true ↔ number y + borrow ≤ number x) ∧
        (last.flag .overflow = true ↔ ¬Fits n (signedNumber x - signedNumber y - borrow)) ∧
        (last.flag .negative = true ↔ signedNumber r < 0)) := by
  intro x y n borrow
  refine ⟨fun c p v takes => takes.step_ok, fun c => exists_columns c false carry pairs, fun states last => ?_⟩
  refine ⟨fun columns => ?_, fun columns => ?_⟩
  · obtain ⟨overflow, negative⟩ := columns.signed
    refine ⟨columns.length_result, ?_, overflow, negative⟩
    rw [Nat.mul_comm]
    exact columns.number_add
  · obtain ⟨overflow, negative⟩ := columns.signed
    have complement : (pairs.map fun w => Calculation.subtraction.addend w.2) = y.map (~~~·) := by
      rw [List.map_map]
      rfl
    have sum := columns.number_add
    have inside := number_lt ((states ++ [last]).map fun q : Processor => q.registers.a)
    rw [columns.length_result] at inside
    have whole := number_complement y
    rw [List.length_map] at whole
    have some : y ≠ [] := by simpa [y] using columns.ne_nil
    rw [complement] at sum overflow
    obtain ⟨difference, carried⟩ := difference_of_complement inside sum whole
    refine ⟨columns.length_result, ?_, carried, ?_, negative⟩
    · exact_mod_cast difference
    · rw [overflow, signedNumber_complement some]
      have regroup : signedNumber x + (-1 - signedNumber y) + (carry.toNat : Int) =
          signedNumber x - signedNumber y - borrow := by
        cases carry <;> simp [borrow] <;> ring
      rw [regroup]

/-- $8000 and $0001 with the carry: the difference of the numbers in two's complement does not fit. -/
theorem columns_binary_at8000 :
    let behind c := ((at8000 c false).afterSteps 2).afterSteps 1
    let result c := number ([(at8000 c false).afterSteps 1, behind c].map (·.registers.a))
    result .addition = 0x8002 ∧ (behind .addition).flag .overflow = false ∧
      result .subtraction = 0x7FFF ∧ (behind .subtraction).flag .carry = true ∧
      (behind .subtraction).flag .overflow = true := by
  intro behind result
  have alone {n k : Nat} (total : n + k * 256 ^ 2 = 0x8002) : n = 0x8002 := by omega
  obtain ⟨-, -, right⟩ := columns_binary [(0x00, 0x01), (0x80, 0x00)] true
  obtain ⟨-, sum, overflow, -⟩ := (right _ _).1 (columns_at8000 .addition false)
  obtain ⟨-, difference, carry, overflow', -⟩ := (right _ _).2 (columns_at8000 .subtraction false)
  refine ⟨?_, Bool.eq_false_iff.mpr (overflow.not.mpr ?_), ?_, carry.mpr ?_, overflow'.mpr ?_⟩
  · have total : result .addition + ((behind .addition).flag .carry).toNat * 256 ^ 2 = 0x8002 :=
      sum.trans (by decide +kernel)
    exact alone total
  · decide +kernel
  · have total : (result .subtraction : Int) = 0x7FFF := difference.trans (by decide +kernel)
    exact_mod_cast total
  · decide +kernel
  · decide +kernel

end Processor

end Atari
