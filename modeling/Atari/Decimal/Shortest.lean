import Atari.Decimal.Double

/-!
# The shortest decimal that reads back

A binary number stands for the interval of reals that round to it. The text written for it is the
decimal with the fewest digits in that interval, always positional. Of two such decimals the nearer
one is taken, and of two equally near the larger.

* `Interval`: the reals that round to a number, as whole multiples of a power of two.
* `onGrid?`: the multiple of `10 ^ e` that is taken, if the interval holds one beside the number.
* `Double.text`: the text of a number.
-/

namespace Atari

/-- The reals between `low` and `high` around `mid`, in units of `2 ^ exponent`. -/
structure Interval where
  low : Nat
  mid : Nat
  high : Nat
  exponent : Int
  /-- Whether the two ends belong to the interval. -/
  closed : Bool

namespace Interval

/-- The reals that round to `m * 2 ^ e`. Below a power of two the neighbour is half as far. -/
def around (m : Nat) (e : Int) : Interval :=
  if m = 0x10000000000000 ∧ -1074 < e then ⟨4 * m - 1, 4 * m, 4 * m + 2, e - 2, m % 2 = 0⟩
  else ⟨2 * m - 1, 2 * m, 2 * m + 1, e - 1, m % 2 = 0⟩

/-- With `k` units of the grid `10 ^ e` written as `k * grid.1`, and `n` units of the interval as
`n * grid.2`, both count the same real unit. -/
def scales (i : Interval) (e : Int) : Nat × Nat :=
  (Nat.pow 10 e.toNat <<< (-i.exponent).toNat, Nat.pow 10 (-e).toNat <<< i.exponent.toNat)

/-- The multiple of `10 ^ e` that is taken, if one of the two beside `mid` is in the interval. -/
def onGrid? (i : Interval) (e : Int) : Option Nat :=
  let (g, u) := i.scales e
  let below := i.mid * u / g
  let above := below + 1
  let downOk := if i.closed then i.low * u ≤ below * g else i.low * u < below * g
  let upOk := if i.closed then above * g ≤ i.high * u else above * g < i.high * u
  if below * g = i.mid * u then some below
  else if downOk ∧ upOk then
    some (if i.mid * u - below * g < above * g - i.mid * u then below else above)
  else if downOk then some below
  else if upOk then some above
  else none

/-- The first grid at or below `10 ^ e` that holds a decimal of the interval, with that decimal. -/
def search (i : Interval) : (steps : Nat) → (e : Int) → Nat × Int
  | 0, e => (i.mid, e)
  | steps + 1, e => match i.onGrid? e with
    | some k => (k, e)
    | none => search i steps (e - 1)

end Interval

namespace Double

/-- The digits of `k * 10 ^ e` in positional notation. -/
def positional (k : Nat) (e : Int) : String :=
  if 0 ≤ e then toString (k * Nat.pow 10 e.toNat)
  else
    let places := (-e).toNat
    let digits := (toString (k % Nat.pow 10 places)).toList
    toString (k / Nat.pow 10 places) ++ "." ++
      String.ofList (List.replicate (places - digits.length) '0' ++ digits)

/-- The text of a number: the fewest digits that read back, never an exponent. -/
def text : Double → String
  | nan => "NaN"
  | infinite negative => if negative then "-inf" else "inf"
  | finite negative m e =>
    (if negative then "-" else "") ++
      if m = 0 then "0"
      else
        let (k, d) := (Interval.around m e).search 700 309
        positional k d

end Double

end Atari
