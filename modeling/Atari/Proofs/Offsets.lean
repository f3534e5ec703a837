import Atari.Disassembly
import Mathlib.Algebra.GroupWithZero.Nat
import Mathlib.Algebra.Ring.Int.Defs
import Mathlib.Tactic.SplitIfs

/-!
# Offsets of addresses

An address and an offset are added as signed words. An offset from `2 ^ 63` on counts backwards, so that one just
below `2 ^ 64` leads to an address in front, where there should be none. The sum itself fits, but for the largest
offsets that count forwards.

* `Address.toInt_toInt64`, `Address.toInt_sum`: offsets and sums as numbers;
* `Address.advance_eq`: the address some bytes further, if it exists; `Address.advance_false`: sums that are not
  looked out for;
* `Address.advance_ofNat`: the small offsets that walks through memory ask for;
* **`Address.advance_told`**: where the address some bytes further is found, and what comes of all other offsets.
-/

namespace Atari

namespace Address

/-! ## Signed words as numbers -/

theorem toInt_toInt64 (n : UInt64) :
    n.toInt64.toInt = if n.toNat < 2 ^ 63 then (n.toNat : Int) else n.toNat - 2 ^ 64 := by
  rw [← Int64.toInt_toBitVec, UInt64.toBitVec_toInt64, BitVec.toInt_eq_toNat_cond, UInt64.toNat_toBitVec]
  split_ifs <;> omega

variable (a : Address) (n : UInt64)

theorem toInt_ofNat_toNat : (Int64.ofNat a.toNat).toInt = a.toNat :=
  Int64.toInt_ofNat_of_lt (Nat.lt_trans a.toNat_lt (by decide))

/-- From `2 ^ 63` on a sum comes to `2 ^ 64` less: either it does not fit, or its offset counts backwards. -/
theorem toInt_sum : (Int64.ofNat a.toNat + n.toInt64).toInt =
    if a.toNat + n.toNat < 2 ^ 63 then (a.toNat + n.toNat : Int) else a.toNat + n.toNat - 2 ^ 64 := by
  have := a.toNat_lt
  have := n.toNat_lt
  rw [Int64.toInt_add, toInt_ofNat_toNat, toInt_toInt64, Int.bmod_def]
  split_ifs <;> omega

/-- A sum does not fit if its offset counts forwards and it comes to `2 ^ 63` or more. -/
theorem signedSum_eq (checked : Bool) : signedSum checked (Int64.ofNat a.toNat) n.toInt64 =
    if checked ∧ n.toNat < 2 ^ 63 ∧ 2 ^ 63 ≤ a.toNat + n.toNat then none
    else some (Int64.ofNat a.toNat + n.toInt64) := by
  have fits : (Int64.ofNat a.toNat + n.toInt64).toInt ≠ (Int64.ofNat a.toNat).toInt + n.toInt64.toInt ↔
      n.toNat < 2 ^ 63 ∧ 2 ^ 63 ≤ a.toNat + n.toNat := by
    rw [toInt_sum, toInt_ofNat_toNat, toInt_toInt64]
    split_ifs <;> omega
  simp only [signedSum, fits]

/-! ## The address some bytes further -/

/-- The address that a place is taken for: those from `2 ^ 64` on start from zero again. -/
def takenFor (place : Nat) : Option Address :=
  if place ≤ 65535 then some (UInt16.ofNat place)
  else if 2 ^ 64 ≤ place then some (UInt16.ofNat (place - 2 ^ 64)) else none

theorem takenFor_eq_iff (place : Nat) :
    takenFor place = (if place ≤ 65535 then some (UInt16.ofNat place) else none) ↔ place < 2 ^ 64 := by
  unfold takenFor
  by_cases inside : place ≤ 65535
  · rw [if_pos inside, if_pos inside]
    exact iff_of_true rfl (by omega)
  · rw [if_neg inside, if_neg inside]
    by_cases wraps : 2 ^ 64 ≤ place
    · rw [if_pos wraps]
      exact iff_of_false (fun same => nomatch same) (by omega)
    · rw [if_neg wraps]
      exact iff_of_true rfl (by omega)

/-- It does not matter where a number wraps around on its way through the places that are no addresses. -/
theorem toOption_ofInt {place : Nat} {v : Int} (small : place < 2 ^ 64 + 65536)
    (h : v = place ∧ place < 2 ^ 64 ∨ v = place - 2 ^ 64 ∧ 65535 < place) : (ofInt v).toOption = takenFor place := by
  unfold ofInt takenFor
  rcases h with ⟨rfl, below⟩ | ⟨rfl, behind⟩
  · rw [if_neg (show ¬2 ^ 64 ≤ place by omega)]
    by_cases inside : place ≤ 65535
    · rw [if_pos (by omega), if_pos inside]
      rfl
    · rw [if_neg (by omega), if_neg inside]
      rfl
  · rw [if_neg (show ¬place ≤ 65535 by omega)]
    by_cases wraps : 2 ^ 64 ≤ place
    · have number : ((place : Int) - 2 ^ 64).toNat = place - 2 ^ 64 := by omega
      rw [if_pos (by omega), if_pos wraps, number]
      rfl
    · rw [if_neg (by omega), if_neg wraps]
      rfl

theorem advance_eq (checked : Bool) : a.advance checked n =
    if checked ∧ n.toNat < 2 ^ 63 ∧ 2 ^ 63 ≤ a.toNat + n.toNat then none else some (takenFor (a.toNat + n.toNat)) := by
  have := a.toNat_lt
  have := n.toNat_lt
  have place : (ofInt (Int64.ofNat a.toNat + n.toInt64).toInt).toOption = takenFor (a.toNat + n.toNat) := by
    refine toOption_ofInt (by omega) ?_
    rw [toInt_sum]
    split_ifs <;> omega
  rw [advance, signedSum_eq, ← place]
  split_ifs <;> rfl

theorem advance_false : a.advance false n = some (a.checkedAdd n) := by
  have := a.toNat_lt
  have := n.toNat_lt
  have place : a.checkedAdd n = takenFor (a.toNat + n.toNat) := by
    refine toOption_ofInt (by omega) ?_
    rw [toInt_toInt64]
    split_ifs <;> omega
  rw [advance_eq, if_neg (fun stops => Bool.false_ne_true stops.1), place]

theorem advance_ofNat {k : Nat} (fits : a.toNat + k < 2 ^ 63) (checked : Bool) :
    a.advance checked (UInt64.ofNat k) = some (Disassembly.after? a k) := by
  have word : (UInt64.ofNat k).toNat = k := UInt64.toNat_ofNat_of_lt' (show k < 2 ^ 64 by omega)
  have inside : a.toNat + k ≤ 65535 ↔ a.toNat + k < Memory.size := Nat.lt_succ_iff.symm
  rw [advance_eq, word, if_neg (by omega), takenFor, if_neg (show ¬2 ^ 64 ≤ a.toNat + k by omega), Disassembly.after?]
  simp only [inside]

/-- **Where the address some bytes further is found.** The answer is the address, or none behind the last one, if
and only if the place is below `2 ^ 64` and the program does not stop. It stops if it looks out for sums that do not
fit, and the offset counts forwards to a place from `2 ^ 63` on. A place from `2 ^ 64` on is taken for one at the
start of memory. -/
theorem advance_told (checked : Bool) (a : Address) (n : UInt64) :
    let place := a.toNat + n.toNat
    let stops := checked = true ∧ n.toNat < 2 ^ 63 ∧ 2 ^ 63 ≤ place
    (a.advance checked n = some (if place ≤ 65535 then some (UInt16.ofNat place) else none) ↔
      place < 2 ^ 64 ∧ ¬stops) ∧
    (a.advance checked n = none ↔ stops) ∧
    (2 ^ 64 ≤ place → a.advance checked n = some (some (UInt16.ofNat (place - 2 ^ 64)))) ∧
    a.advance false n = some (a.checkedAdd n) := by
  intro place stops
  have told : a.advance checked n = if stops then none else some (takenFor place) := a.advance_eq n checked
  have := a.toNat_lt
  refine ⟨?_, ?_, fun wraps => ?_, a.advance_false n⟩
  · by_cases h : stops
    · rw [told, if_pos h]
      exact iff_of_false (fun same => nomatch same) fun goes => goes.2 h
    · rw [told, if_neg h, Option.some_inj, takenFor_eq_iff]
      exact (and_iff_left h).symm
  · by_cases h : stops
    · rw [told, if_pos h]
      exact iff_of_true rfl h
    · rw [told, if_neg h]
      exact iff_of_false (fun same => nomatch same) h
  · have goes : ¬stops := fun h => by
      have := h.2.1
      omega
    rw [told, if_neg goes, takenFor, if_neg (by omega), if_pos wraps]

/-- The largest offset leads from the second address to the first one. The largest one that counts forwards stops a
program that looks out for sums that do not fit. -/
theorem advance_largest :
    (∀ checked, advance checked 1 0xFFFFFFFFFFFFFFFF = some (some 0)) ∧ advance true 1 0x7FFFFFFFFFFFFFFF = none ∧
      ¬∀ (a : Address) (n : UInt64), a.checkedAdd n =
        if a.toNat + n.toNat ≤ 65535 then some (UInt16.ofNat (a.toNat + n.toNat)) else none := by
  refine ⟨by decide, by decide, fun law => ?_⟩
  have := law 1 0xFFFFFFFFFFFFFFFF
  exact absurd this (by decide)

end Address

end Atari
