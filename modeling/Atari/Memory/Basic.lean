import Atari.Memory.Cells
import Atari.Value

/-!
# Memory

The bytes of the 64 KiB address space.

* `Memory.peek`, `Memory.set`: one byte;
* `Memory.read`: a range, refused when it passes the end;
* `Memory.pointer`: the address stored at a location, optionally within one page;
* `Memory.changes`: the runs of bytes in which two memories differ.
-/

namespace Atari

/-- Why a range of memory is refused. -/
inductive MemoryError
  | readOverflow (length location : Nat)
  | writeOverflow (length location : Nat)
  deriving DecidableEq, Repr

/-- The text that reports the error. -/
def MemoryError.message : MemoryError → String
  | readOverflow n a => "could not READ " ++ toString n ++ bounds a
  | writeOverflow n a => "could not WRITE " ++ toString n ++ bounds a
where
  bounds (a : Nat) : String :=
    " bytes at address #0x" ++ hex .upper 4 a ++ ", address max is #0x" ++ hex .upper 4 0xFFFF

/-- The bytes of the address space. -/
structure Memory where
  cells : Cells Byte 16

namespace Memory

def size : Nat := 65536

def zero : Memory := ⟨Cells.fill 0 16⟩

instance : Inhabited Memory := ⟨zero⟩

def peek (m : Memory) (a : Address) : Byte := m.cells.get a.toNat

/-- The memory with the byte `v` at `a`. -/
def set (m : Memory) (a : Address) (v : Byte) : Memory := ⟨m.cells.set a.toNat v⟩

theorem toNat_lt_size (a : Address) : a.toNat < Cells.size 16 := a.toNat_lt

@[simp] theorem peek_zero (a : Address) : zero.peek a = 0 := Cells.get_fill ..

theorem peek_set (m : Memory) (a b : Address) (v : Byte) :
    (m.set a v).peek b = if a = b then v else m.peek b := by
  simp only [peek, set, Cells.get_set _ (toNat_lt_size a) (toNat_lt_size b),
    UInt16.toNat_inj]

@[simp] theorem peek_set_self (m : Memory) (a : Address) (v : Byte) : (m.set a v).peek a = v := by
  simp [peek_set]

theorem ext_peek {m k : Memory} (h : ∀ a, m.peek a = k.peek a) : m = k := by
  cases m; cases k
  refine congrArg mk (Cells.ext fun i hi => ?_)
  have := h (UInt16.ofNat i)
  rwa [peek, peek, UInt16.toNat_ofNat_of_lt' hi] at this

/-- The `n` bytes from `a` on, wrapping around at the end. -/
def bytesFrom (m : Memory) (a : Address) : (n : Nat) → List Byte
  | 0 => []
  | n + 1 => m.peek a :: m.bytesFrom (a + 1) n

theorem length_bytesFrom (m : Memory) (a : Address) (n : Nat) : (m.bytesFrom a n).length = n := by
  induction n generalizing a with
  | zero => rfl
  | succ n ih => exact congrArg (· + 1) (ih (a + 1))

/-- A range of bytes, refused when it passes the end of memory. -/
def read (m : Memory) (location length : Nat) : Except MemoryError (List Byte) :=
  if location + length ≤ size then .ok (m.bytesFrom (UInt16.ofNat location) length)
  else .error (.readOverflow length location)

/-- The address stored at `p`, low byte first. Within a page, the high byte of a pointer at the end
of a page is read at the start of that page. -/
def pointer (m : Memory) (p : Address) (withinPage : Bool) : Address :=
  Address.ofBytes (m.peek p)
    (m.peek (if withinPage then Address.ofBytes (p.low + 1) p.high else p + 1))

/-- The runs of consecutive addresses whose byte differs between two memories, with the bytes of the
later one. -/
def changes (before after : Memory) : List (Address × List Byte) :=
  go 65535 []
where
  /-- Walks downwards from `n`; `runs` holds what was found above. -/
  go : (n : Nat) → List (Address × List Byte) → List (Address × List Byte)
    | 0, runs => visit 0 runs
    | n + 1, runs => go n (visit (n + 1) runs)
  /-- Adds the byte at `n` to the run above, or opens a run. -/
  visit (n : Nat) (runs : List (Address × List Byte)) : List (Address × List Byte) :=
    let a := UInt16.ofNat n
    let v := after.peek a
    if before.peek a = v then runs
    else match runs with
      | (b, bytes) :: rest =>
        if b = a + 1 then (a, v :: bytes) :: rest else (a, [v]) :: runs
      | [] => [(a, [v])]

end Memory

end Atari
