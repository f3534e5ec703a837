/-!
# Hexadecimal text

Fixed-width and minimum-width hexadecimal numbers, and padding to a column.

* `hexDigits c w n`: the last `w` digits of `n`, in the letter case `c`.
* `hex c w n`: all digits of `n`, with zeros in front up to the width `w`.
* `padRight w s`: `s` with blanks behind it up to `w` characters; a longer text is left alone.
-/

namespace Atari

/-- The letters that stand for the digits ten to fifteen. -/
inductive LetterCase
  | lower
  | upper
  deriving DecidableEq, Repr

/-- The digit of weight one of `n`. -/
def hexDigit (c : LetterCase) (n : Nat) : Char :=
  if n % 16 < 10 then Char.ofNat (48 + n % 16)
  else match c with
    | .lower => Char.ofNat (87 + n % 16)
    | .upper => Char.ofNat (55 + n % 16)

/-- The last `w` digits of `n`, the highest first. -/
def hexDigits (c : LetterCase) : (w : Nat) → (n : Nat) → List Char
  | 0, _ => []
  | w + 1, n => hexDigits c w (n / 16) ++ [hexDigit c n]

@[simp] theorem length_hexDigits (c : LetterCase) (w n : Nat) : (hexDigits c w n).length = w := by
  induction w generalizing n with
  | zero => rfl
  | succ w ih => simp [hexDigits, ih]

/-- All digits of `n`, with zeros in front up to the width `w`. -/
def hex (c : LetterCase) (w n : Nat) : String :=
  String.ofList (hexDigits c (max w (n.log2 / 4 + 1)) n)

/-- Blanks behind `s` up to `w` characters. -/
def padRight (w : Nat) (s : String) : String :=
  s ++ String.ofList (List.replicate (w - s.length) ' ')

end Atari
