import Atari.Value

/-!
# Words and their bytes

* `Address.toNat_ofBytes`: an address as a number;
* **`Address.ofBytes_low_high`**: an address is made of its two bytes; `Address.low_ofBytes` and
  `Address.high_ofBytes` are the other way round;
* `Address.toNat_add_ofNat`: the address some bytes further; `Address.add_ofNat_ne_self`: addresses some bytes
  apart are different;
* `wordSum_of_lt`, `wordProduct_of_lt`: sums and products that fit in a word; `wordSum_of_le`: sums that do not.
-/

namespace Atari

namespace Address

theorem toNat_ofBytes (low high : Byte) : (ofBytes low high).toNat = low.toNat + high.toNat * 256 := by
  have hl := low.toNat_lt
  have hh := high.toNat_lt
  have shifted : (high.toUInt16 <<< 8).toNat = high.toNat <<< 8 := by
    rw [UInt16.toNat_shiftLeft, UInt8.toNat_toUInt16]
    exact Nat.mod_eq_of_lt (by rw [Nat.shiftLeft_eq]; simp; omega)
  rw [ofBytes, UInt16.toNat_or, shifted, UInt8.toNat_toUInt16, Nat.or_comm,
    ← Nat.shiftLeft_add_eq_or_of_lt hl, Nat.shiftLeft_eq]
  omega

theorem ofBytes_low_high (a : Address) : ofBytes a.low a.high = a := by
  have ha := a.toNat_lt
  apply UInt16.toNat_inj.mp
  rw [toNat_ofBytes, low, high, UInt16.toNat_toUInt8, UInt16.toNat_toUInt8,
    UInt16.toNat_shiftRight, Nat.shiftRight_eq_div_pow]
  simp
  omega

theorem low_ofBytes (low high : Byte) : (ofBytes low high).low = low := by
  apply UInt8.toNat_inj.mp
  have := low.toNat_lt
  rw [Address.low, UInt16.toNat_toUInt8, toNat_ofBytes]
  omega

theorem high_ofBytes (low high : Byte) : (ofBytes low high).high = high := by
  apply UInt8.toNat_inj.mp
  have := low.toNat_lt
  have := high.toNat_lt
  rw [Address.high, UInt16.toNat_toUInt8, UInt16.toNat_shiftRight, Nat.shiftRight_eq_div_pow,
    toNat_ofBytes]
  simp
  omega

theorem low_toUInt16 (v : Byte) : Address.low v.toUInt16 = v := UInt8.toUInt8_toUInt16 v

theorem add_ofNat_succ (a : Address) (n : Nat) : a + UInt16.ofNat (n + 1) = a + 1 + UInt16.ofNat n := by
  have next : UInt16.ofNat (n + 1) = 1 + UInt16.ofNat n := by
    rw [Nat.add_comm, UInt16.ofNat_add]
    rfl
  rw [next, UInt16.add_assoc]

theorem toNat_add_ofNat {a : Address} {n : Nat} (fits : a.toNat + n < 65536) :
    (a + UInt16.ofNat n).toNat = a.toNat + n := by
  rw [UInt16.toNat_add, UInt16.toNat_ofNat_of_lt' (show n < 65536 by omega)]
  omega

theorem add_ofNat_ne_self {n : Nat} (positive : 0 < n) (small : n < 65536) (a : Address) :
    a + UInt16.ofNat n ≠ a := by
  intro h
  have sum : (a.toNat + n) % 65536 = a.toNat := by
    have := congrArg UInt16.toNat h
    rwa [UInt16.toNat_add, UInt16.toNat_ofNat_of_lt' small] at this
  have := a.toNat_lt
  omega

end Address

/-! ## Machine words -/

section Machine

variable {a b : UInt64} (checked : Bool)

theorem wordSum_of_lt (fits : a.toNat + b.toNat < UInt64.size) :
    ∃ c, wordSum checked a b = some c ∧ c.toNat = a.toNat + b.toNat := by
  refine ⟨a + b, if_neg fun h => Nat.not_le_of_lt fits h.2, ?_⟩
  rw [UInt64.toNat_add]
  exact Nat.mod_eq_of_lt fits

theorem wordSum_of_le (wraps : UInt64.size ≤ a.toNat + b.toNat) :
    wordSum true a b = none ∧
      ∃ c, wordSum false a b = some c ∧ c.toNat = a.toNat + b.toNat - UInt64.size := by
  refine ⟨if_pos ⟨rfl, wraps⟩, a + b, if_neg fun h => Bool.false_ne_true h.1, ?_⟩
  have ha : a.toNat < UInt64.size := a.toNat_lt
  have hb : b.toNat < UInt64.size := b.toNat_lt
  have sum : (a + b).toNat = (a.toNat + b.toNat) % UInt64.size := UInt64.toNat_add a b
  rw [sum, Nat.mod_eq_sub_mod wraps]
  exact Nat.mod_eq_of_lt (by omega)

theorem wordProduct_of_lt (fits : a.toNat * b.toNat < UInt64.size) :
    ∃ c, wordProduct checked a b = some c ∧ c.toNat = a.toNat * b.toNat := by
  refine ⟨a * b, if_neg fun h => Nat.not_le_of_lt fits h.2, ?_⟩
  rw [UInt64.toNat_mul]
  exact Nat.mod_eq_of_lt fits

end Machine

end Atari
