/-!
# Binary floating-point numbers, exactly

A number of the 64 bit binary format is read from its bits: it is not a number, infinite, or a whole
number times a power of two.

* `Double.ofBits`: the number that 64 bits stand for.
* `Double.whole?`: the integer it equals, if it equals one.
-/

namespace Atari

/-- A number of the 64 bit binary format. -/
inductive Double
  | nan
  | infinite (negative : Bool)
  /-- The number `± mantissa * 2 ^ exponent`. -/
  | finite (negative : Bool) (mantissa : Nat) (exponent : Int)
  deriving DecidableEq, Repr

namespace Double

/-- The number that the bits stand for: one sign bit, eleven bits of exponent and 52 of fraction. -/
def ofBits (bits : UInt64) : Double :=
  let negative := bits.toNat >>> 63 == 1
  let biased : Nat := (bits.toNat >>> 52) % 0x800
  let fraction : Nat := bits.toNat % 0x10000000000000
  if biased = 2047 then
    if fraction = 0 then infinite negative else nan
  else if biased = 0 then finite negative fraction (-1074)
  else finite negative (0x10000000000000 + fraction) (biased - 1075)

/-- An integer with the sign in front. -/
def signed (negative : Bool) (n : Nat) : Int := if negative then -n else n

/-- The integer that the number equals, if it equals one. -/
def whole? : Double → Option Int
  | nan | infinite _ => none
  | finite negative m e =>
    if 0 ≤ e then some (signed negative (m <<< e.toNat))
    else if m % (1 <<< (-e).toNat) = 0 then some (signed negative (m >>> (-e).toNat))
    else none

end Double

end Atari
