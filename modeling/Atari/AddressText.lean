import Atari.Text.Blank
import Atari.Value

/-!
# Addresses as people write them

A hexadecimal address of up to four digits, behind `#0x`, `0x`, `$` or nothing, between blanks.

* `hexValue?`: the value of a digit, in either case;
* `decodeHex`: the bytes that digits stand for;
* `Address.parse`: the address of a text; `Address.parseWith`: with any decoder of digits, whose bytes are picked by
  their places;
* `AddressTextError`: why a text is no address. Positions count bytes of the digits filled up to
  four, and a character outside ASCII shows as its first byte.
-/

namespace Atari

/-- The value of a hexadecimal digit. -/
def hexValue? (c : Char) : Option Nat :=
  if '0' ≤ c ∧ c ≤ '9' then some (c.toNat - 48)
  else if 'a' ≤ c ∧ c ≤ 'f' then some (c.toNat - 87)
  else if 'A' ≤ c ∧ c ≤ 'F' then some (c.toNat - 55)
  else none

/-- Why digits are refused. -/
inductive DigitError
  | oddLength
  | invalidDigit (c : Char) (position : Nat)
  deriving DecidableEq, Repr

/-- Why a text is no address. -/
inductive AddressTextError
  /-- There are no digits, or too many. -/
  | length (text : String)
  | digits (text : String) (e : DigitError)
  deriving DecidableEq, Repr

/-- A character between quotes, with escapes for those that cannot be seen. -/
def quotedChar (c : Char) : String :=
  "'" ++ escaped ++ "'"
where
  /-- The character or its escape. -/
  escaped : String :=
    if c = '\x00' then "\\0"
    else if c = '\t' then "\\t"
    else if c = '\n' then "\\n"
    else if c = '\r' then "\\r"
    else if c = '\'' then "\\'"
    else if c = '\\' then "\\\\"
    else if c.toNat < 0x20 ∨ (0x7F ≤ c.toNat ∧ c.toNat ≤ 0xA0) ∨ c.toNat = 0xAD then
      "\\u\x7b" ++ hex .lower 1 c.toNat ++ "\x7d"
    else String.singleton c

/-- The text that reports the error. -/
def DigitError.message : DigitError → String
  | oddLength => "Odd number of digits"
  | invalidDigit c position =>
    "Invalid character " ++ quotedChar c ++ " at position " ++ toString position

/-- The text that reports the error. -/
def AddressTextError.message : AddressTextError → String
  | length text => "'" ++ text ++ "' is not a 16 bits hexadecimal address"
  | digits text e => "invalid address '" ++ text ++ "': " ++ e.message

def byteLength (cs : List Char) : Nat := cs.foldr (fun c n => c.utf8Size + n) 0

/-- The first byte of a character, as a character. -/
def firstByte (c : Char) : Char :=
  Char.ofNat (((String.utf8EncodeChar c).map UInt8.toNat).headD 0)

/-- The number that digits stand for, behind digits of the value `n` that take `position` bytes. -/
def hexNumber (n position : Nat) : List Char → Except DigitError Nat
  | [] => .ok n
  | c :: cs => match hexValue? c with
    | some d => hexNumber (n * 16 + d) (position + c.utf8Size) cs
    | none => .error (.invalidDigit (firstByte c) position)

/-- The bytes that pairs of digits stand for, behind digits that take `position` bytes. -/
def hexPairs (position : Nat) : List Char → Except DigitError (List Byte)
  | [] => .ok []
  | [x] => .error (.invalidDigit (firstByte x) position)
  | x :: y :: cs => match hexValue? x, hexValue? y with
    | some m, some n => (hexPairs (position + 2) cs).map (UInt8.ofNat (m * 16 + n) :: ·)
    | none, _ => .error (.invalidDigit (firstByte x) position)
    | _, none => .error (.invalidDigit (firstByte y) (position + 1))

/-- The bytes that digits stand for, two digits each. -/
def decodeHex (cs : List Char) : Except DigitError (List Byte) :=
  if byteLength cs % 2 = 1 then .error .oddLength else hexPairs 0 cs

/-- The characters behind the mark of a hexadecimal number, if there is one. -/
def dropMark : List Char → List Char
  | '#' :: '0' :: 'x' :: cs => cs
  | '0' :: 'x' :: cs => cs
  | '$' :: cs => cs
  | cs => cs

/-- The digits with zeros in front up to four. -/
def fillDigits (cs : List Char) : List Char := List.replicate (4 - cs.length) '0' ++ cs

/-- The address of a text without blanks around it. -/
def Address.parseChars (cs : List Char) : Except AddressTextError Address :=
  let digits := dropMark cs
  if digits = [] ∨ 4 < byteLength digits then .error (.length (String.ofList cs))
  else
    let digits := fillDigits digits
    if byteLength digits % 2 = 1 then .error (.digits (String.ofList cs) .oddLength)
    else match hexNumber 0 0 digits with
      | .ok n => .ok (UInt16.ofNat n)
      | .error e => .error (.digits (String.ofList cs) e)

/-- The address of a text, whose digits are left to a decoder. Its first two bytes are picked by their places; there is
no answer if there are fewer. -/
def Address.parseWith (decode : List Char → Except DigitError (List Byte)) (s : String) :
    Option (Except AddressTextError Address) :=
  let cs := trimChars s.toList
  let digits := dropMark cs
  if digits = [] ∨ 4 < byteLength digits then some (.error (.length (String.ofList cs)))
  else match decode (fillDigits digits) with
    | .error e => some (.error (.digits (String.ofList cs) e))
    | .ok bytes => match bytes[0]?, bytes[1]? with
      | some high, some low => some (.ok (.ofBytes low high))
      | _, _ => none

def Address.parse (s : String) : Except AddressTextError Address :=
  Address.parseChars (trimChars s.toList)

end Atari
