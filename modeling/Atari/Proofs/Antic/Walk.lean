import Atari.Antic.DisplayList
import Atari.Proofs.Antic.Registers

/-!
# Walks through a display list

The scan lines of a frame, counted by reading its display list from the cursor on, without drawing
anything.

* `DisplayWalk.Spot`: a place in a display list; `DisplayWalk.leg`: where the instruction there leads;
* `DisplayWalk.Ends`: a walk that ends after so many scan lines; `DisplayWalk.Visits`: what it reads.
-/

namespace Atari

/-! ## Instructions in memory -/

namespace DisplayInstruction

theorem length_pos (i : DisplayInstruction) : 0 < i.length := by
  cases i <;> simp only [length]
  · decide
  · decide
  · split <;> decide

theorem pointer_congr {m k : Memory} {a : Address}
    (h : ∀ j < 3, k.peek (a + UInt16.ofNat j) = m.peek (a + UInt16.ofNat j)) :
    k.pointer (a + 1) false = m.pointer (a + 1) false := by
  have h₁ : k.peek (a + 1) = m.peek (a + 1) := h 1 (by decide)
  have h₂ : k.peek (a + 1 + 1) = m.peek (a + 1 + 1) := by
    rw [UInt16.add_assoc]
    exact h 2 (by decide)
  simp only [Memory.pointer, Bool.false_eq_true, if_false]
  rw [h₁, h₂]

/-- **An instruction depends on the bytes that it takes alone.** -/
theorem decode_congr {m k : Memory} {a : Address}
    (h : ∀ j < (decode m a).length, k.peek (a + UInt16.ofNat j) = m.peek (a + UInt16.ofNat j)) :
    decode k a = decode m a := by
  have opcode : k.peek a = m.peek a := by simpa using h 0 (length_pos _)
  have operand (hl : (decode m a).length = 3) : k.pointer (a + 1) false = m.pointer (a + 1) false :=
    pointer_congr (hl ▸ h)
  revert operand
  unfold decode
  rw [opcode]
  dsimp only
  split
  · intro _
    rfl
  · intro operand
    rw [operand rfl]
  · intro operand
    by_cases hscan : m.peek a &&& 0x40 != 0
    · rw [operand (by simp [length, hscan])]
    · rw [if_neg hscan, if_neg hscan]

theorem mem_table_of_decode {m : Memory} {a : Address} {mode : Mode} {scan : Option Address}
    {vertical horizontal interrupt : Bool}
    (h : decode m a = modeLine mode scan vertical horizontal interrupt) : mode ∈ Mode.table := by
  have table (code : Nat) : (Mode.ofCode? code).getD .text40 ∈ Mode.table := by
    cases hc : Mode.ofCode? code with
    | none => decide
    | some found => exact List.mem_of_find?_eq_some hc
  unfold decode at h
  dsimp only at h
  split at h
  · cases h
  · cases h
  · cases h
    exact table _

theorem height_pos_of_decode {m : Memory} {a : Address} {mode : Mode} {scan : Option Address}
    {vertical horizontal interrupt : Bool}
    (h : decode m a = modeLine mode scan vertical horizontal interrupt) : 0 < mode.height := by
  have all : ∀ f ∈ Mode.table, 0 < f.height := by decide
  exact all mode (mem_table_of_decode h)

end DisplayInstruction

/-! ## Walks -/

namespace DisplayWalk

open DisplayInstruction

/-- A place in a display list: the address of an instruction, and whether the last mode line had
vertical scrolling. -/
structure Spot where
  address : Address
  inRegion : Bool
  deriving DecidableEq, Repr

/-- Where an instruction leads: after some scan lines to another place, or to the end of the frame. -/
inductive Leg
  | lines (n : Nat) (next : Spot)
  | finish (target : Address)
  deriving DecidableEq, Repr

/-- The rows that the vertical scroll selects from a mode line: from the scroll on at the start of a
scrolled region, up to the scroll behind its end, and all of them elsewhere. -/
def rowCount (height vscrol : Nat) : (inRegion scrolls : Bool) → Nat
  | false, true => height - min vscrol (height - 1)
  | true, false => min vscrol (height - 1) + 1
  | false, false | true, true => height

/-- Where the instruction at a place leads. -/
def leg (m : Memory) (s : Spot) : Leg :=
  match decode m s.address with
  | blank lines _ => .lines lines ⟨s.address + 1, false⟩
  | jump target true _ => .finish target
  | jump target false _ => .lines 1 ⟨target, s.inRegion⟩
  | modeLine mode scan scrolls _ _ =>
    .lines (rowCount mode.height (Video.vscrol m).toNat s.inRegion scrolls)
      ⟨s.address + (if scan.isSome then 3 else 1), scrolls⟩

/-- The walk from a place ends after `n` scan lines, with a jump to `target`. -/
inductive Ends (m : Memory) : Spot → Nat → Address → Prop
  | finish {s : Spot} {target : Address} : leg m s = .finish target → Ends m s 0 target
  | lines {s next : Spot} {k n : Nat} {target : Address} : leg m s = .lines k next →
      Ends m next n target → Ends m s (k + n) target

/-- The walk from a place comes to another one. -/
inductive Visits (m : Memory) : Spot → Spot → Prop
  | here (s : Spot) : Visits m s s
  | lines {s next spot : Spot} {k : Nat} : leg m s = .lines k next → Visits m next spot →
      Visits m s spot

/-- The instruction at a place takes no byte from the given addresses. -/
def Clear (m : Memory) (s : Spot) (addresses : List Address) : Prop :=
  ∀ j < (decode m s.address).length, s.address + UInt16.ofNat j ∉ addresses

instance (m : Memory) (s : Spot) (addresses : List Address) : Decidable (Clear m s addresses) :=
  inferInstanceAs (Decidable (∀ j < _, _))

/-- No instruction that the walk from a place comes to takes a byte from the given addresses. -/
def Avoids (m : Memory) (s : Spot) (addresses : List Address) : Prop :=
  ∀ spot, Visits m s spot → ∀ j < (decode m spot.address).length,
    spot.address + UInt16.ofNat j ∉ addresses

theorem Avoids.next {m : Memory} {s next : Spot} {k : Nat} {addresses : List Address}
    (h : Avoids m s addresses) (hl : leg m s = .lines k next) : Avoids m next addresses :=
  fun spot hv => h spot (.lines hl hv)

theorem Avoids.clear {m : Memory} {s : Spot} {addresses : List Address} (h : Avoids m s addresses) :
    Clear m s addresses := h s (.here s)

/-- A walk takes at least one scan line for every instruction before its end. -/
theorem leg_lines_pos {m : Memory} {s next : Spot} {k : Nat} (h : leg m s = .lines k next) : 0 < k := by
  unfold leg at h
  split at h
  · rename_i lines _ hd
    cases h
    unfold decode at hd
    dsimp only at hd
    split at hd
    · cases hd
      exact Nat.succ_pos _
    · cases hd
    · cases hd
  · cases h
  · cases h
    decide
  · rename_i mode _ scrolls _ _ hd
    have height := height_pos_of_decode hd
    cases h
    cases s.inRegion <;> cases scrolls <;> simp only [rowCount] <;> omega

/-- **A walk ends in one way only.** -/
theorem Ends.unique {m : Memory} {s : Spot} {n k : Nat} {t u : Address} (h : Ends m s n t)
    (h' : Ends m s k u) : n = k ∧ t = u := by
  induction h generalizing k with
  | finish hl =>
    cases h' with
    | finish hl' =>
      rw [hl] at hl'
      cases hl'
      exact ⟨rfl, rfl⟩
    | lines hl' _ =>
      rw [hl] at hl'
      cases hl'
  | lines hl _ ih =>
    cases h' with
    | finish hl' =>
      rw [hl] at hl'
      cases hl'
    | lines hl' ends =>
      rw [hl] at hl'
      cases hl'
      obtain ⟨rfl, rfl⟩ := ih ends
      exact ⟨rfl, rfl⟩

end DisplayWalk

end Atari
