import Atari.Text.Hex
import Atari.Decimal.Shortest
import Atari.Word

/-!
# Bytes and addresses

The words of the machine, and how wider numbers become words: a number out of range is refused,
never clamped.

* `Byte`: eight bits, read as `0 … 255` or as two's complement.
* `Address`: a location of the 64 KiB address space.
* `Byte.ofInt`, `Address.ofInt`: the checked conversions; `ofCount` and `ofDouble` go through them.
* `Address.checkedAdd`: the address some bytes further, if it exists; `Address.advance`: the same in signed
  words, where a sum that does not fit can stop the program.
-/

namespace Atari

/-- A word of eight bits. -/
abbrev Byte := UInt8

/-- A location of the 64 KiB address space. -/
abbrev Address := UInt16

/-- Why a number is not a word of the machine. -/
inductive ValueError
  | addressOutOfRange (value : Int)
  | byteOutOfRange (value : Int)
  | notAnInteger (value : Double)
  deriving DecidableEq, Repr

/-- The text that reports the error. -/
def ValueError.message : ValueError → String
  | addressOutOfRange v => "invalid address " ++ toString v ++ ", it must be in [0, 65535]"
  | byteOutOfRange v => "invalid byte " ++ toString v ++ ", it must be in [-128, 255]"
  | notAnInteger v => v.text ++ " is not an integer"

/-- The number of the signed 64 bit words nearest to `v`. -/
def clampSigned64 (v : Int) : Int := max (-0x8000000000000000) (min maxSigned64 v)

/-- A number that counts in signed 64 bit words; one that is not a whole number is refused. -/
def integerOfDouble (x : Double) : Except ValueError Int :=
  match x.whole? with
  | some v => .ok (clampSigned64 v)
  | none => .error (.notAnInteger x)

namespace Address

/-- The highest address. -/
def top : Address := 0xFFFF

def ofInt (v : Int) : Except ValueError Address :=
  if 0 ≤ v ∧ v ≤ 0xFFFF then .ok (UInt16.ofNat v.toNat) else .error (.addressOutOfRange v)

/-- The address of an unsigned count. A count above the signed words is reported as their largest
number. -/
def ofCount (n : Nat) : Except ValueError Address := ofInt (min n maxSigned64)

def ofDouble (x : Double) : Except ValueError Address := integerOfDouble x >>= ofInt

/-- The address with the given low and high bytes. -/
def ofBytes (low high : Byte) : Address := low.toUInt16 ||| (high.toUInt16 <<< 8)

def low (a : Address) : Byte := a.toUInt8

def high (a : Address) : Byte := (a >>> 8).toUInt8

/-- The address `n` bytes further, if it exists. The offset is a 64 bit word read as two's
complement, so one from `2 ^ 63` on counts backwards. -/
def checkedAdd (a : Address) (n : UInt64) : Option Address :=
  (ofInt (a.toNat + n.toInt64.toInt)).toOption

/-- The address `n` bytes further, if it exists, found by a sum of signed words. Where the program stops
there is no result. -/
def advance (checked : Bool) (a : Address) (n : UInt64) : Option (Option Address) := do
  let place ← signedSum checked (Int64.ofNat a.toNat) n.toInt64
  return (ofInt place.toInt).toOption

/-- The text of an address, such as `$0A2F`. -/
def text (a : Address) : String := "$" ++ hex .upper 4 a.toNat

/-- The text of an address in listings, such as `#0x0A2F`. -/
def listed (a : Address) : String := "#0x" ++ hex .upper 4 a.toNat

end Address

namespace Byte

/-- The byte of a number, in the signed or the unsigned reading. -/
def ofInt (v : Int) : Except ValueError Byte :=
  if -128 ≤ v ∧ v ≤ 255 then .ok (UInt8.ofNat (v % 256).toNat) else .error (.byteOutOfRange v)

def ofDouble (x : Double) : Except ValueError Byte := integerOfDouble x >>= ofInt

/-- The signed reading. -/
def signed (b : Byte) : Int := if b < 128 then b.toNat else b.toNat - 256

/-- Whether the signed reading is below zero. -/
def isNegative (b : Byte) : Bool := b &&& 0x80 != 0

/-- Two lower-case hexadecimal digits. -/
def digits (b : Byte) : String := hex .lower 2 b.toNat

/-- The text of a byte, such as `0x0a`. -/
def text (b : Byte) : String := "0x" ++ digits b

end Byte

end Atari
