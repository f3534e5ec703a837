import Atari.Board.Store

/-!
# Ranges of memory in machine words

Who reads or writes a range of memory gives its location and its length as machine words, whose sum may stop the
program. A program also stops when it takes the bytes between two places that are the wrong way round.

* `Memory.slice?`, `Memory.readRange`: the bytes of a range;
* `Board.storeEach`, `Board.pokeUpTo`: bytes stored one after the other, each at a place that is looked
  up in memory again; what was stored is kept if one is refused;
* `Board.writeRange`: bytes stored in a range.

Where the program stops there is no result.
-/

namespace Atari

namespace Memory

/-- The bytes from `start` up to `stop`. -/
def slice? (m : Memory) (start stop : UInt64) : Option (List Byte) :=
  if start ≤ stop ∧ stop.toNat ≤ size then
    some (m.bytesFrom (UInt16.ofNat start.toNat) (stop.toNat - start.toNat))
  else none

/-- A range of bytes, refused when its end passes the end of memory. -/
def readRange (checked : Bool) (m : Memory) (location length : UInt64) :
    Option (Except MemoryError (List Byte)) := do
  let stop ← wordSum checked location length
  if stop.toNat ≤ size then
    let bytes ← m.slice? location stop
    return .ok bytes
  else return .error (.readOverflow length.toNat location.toNat)

end Memory

namespace Board

variable (store : Store)

/-- Stores bytes one after the other, up to a location that is not in memory. -/
def storeEach : Board → (location : Nat) → List Byte → Except MemoryError Unit × Board
  | b, _, [] => (.ok (), b)
  | b, location, v :: data =>
    if location + 1 ≤ Memory.size then
      storeEach (store b (UInt16.ofNat location) v) (location + 1) data
    else (.error (.writeOverflow 1 location), b)

/-- Stores bytes in a range that ends in front of `stop`, refused when this passes the end of memory. -/
def pokeUpTo (b : Board) (a : Address) (stop : Nat) (data : List Byte) : Except MemoryError Unit × Board :=
  if stop ≤ Memory.size then b.storeEach store a.toNat data
  else (.error (.writeOverflow data.length a.toNat), b)

/-- Stores bytes at a location that need not be an address. -/
def writeRange (checked : Bool) (b : Board) (location : UInt64) (data : List Byte) :
    Option (Except MemoryError Unit × Board) :=
  match Address.ofCount location.toNat with
  | .ok a => do
    let stop ← wordSum checked a.toUInt64 (UInt64.ofNat data.length)
    return b.pokeUpTo store a stop.toNat data
  | .error _ => some (.error (.writeOverflow data.length location.toNat), b)

end Board

end Atari
