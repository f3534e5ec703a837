/-!
# Machine words

Programs count in words of 64 bits. What does not fit in a word wraps around, or it stops the program, if that looks
out for such results; where the program stops there is no result.

* `wordSum`, `wordProduct`: the sum and the product of two words;
* `signedSum`: the sum of two signed words.
-/

namespace Atari

/-- The largest number of a signed 64 bit word. -/
def maxSigned64 : Int := 0x7FFFFFFFFFFFFFFF

/-- The sum of two words. It stops a program that looks out for sums that do not fit. -/
def wordSum (checked : Bool) (a b : UInt64) : Option UInt64 :=
  if checked ∧ UInt64.size ≤ a.toNat + b.toNat then none else some (a + b)

/-- The product of two words. It stops a program that looks out for products that do not fit. -/
def wordProduct (checked : Bool) (a b : UInt64) : Option UInt64 :=
  if checked ∧ UInt64.size ≤ a.toNat * b.toNat then none else some (a * b)

/-- The sum of two signed words. It stops a program that looks out for sums that do not fit. -/
def signedSum (checked : Bool) (a b : Int64) : Option Int64 :=
  if checked ∧ (a + b).toInt ≠ a.toInt + b.toInt then none else some (a + b)

end Atari
