import Atari.Disassembly
import Atari.Proofs.Processor.Writes

/-!
# Walks through memory

A walk reads memory as instructions, one behind the other, until memory ends or an operand would not fit.

* `Disassembly.walk`: all lines from an address on; `Disassembly.next`: what a walk yields when it is asked
  once more;
* `Disassembly.Tiles`: lines that stand for a part of memory; `Disassembly.Ends`: where a walk ends;
* **`Disassembly.walk_tiles`**: a walk is finite, and its lines tile memory up to such an end.
-/

namespace Atari

namespace Disassembly

variable (s : InstructionSet) (m : Memory)

def walk (a : Address) : List Listing := lines s m Memory.size (some a)

/-- What a walk yields at its cursor, and the cursor behind it. A walk that yields nothing loses its
cursor. -/
def next (cursor : Option Address) : Option Listing × Option Address :=
  match cursor.bind (line? s m) with
  | some (l, behind) => (some l, behind)
  | none => (none, none)

/-- The cursor of a walk that was asked for so many lines. -/
def cursor : (n : Nat) → Option Address → Option Address
  | 0, start => start
  | n + 1, start => cursor n (next s m start).2

/-- The number of bytes in the line at an address. An opcode without an entry stands alone. -/
def widthAt (a : Address) : Nat :=
  match s.get? (m.peek a) with
  | some i => i.mode.width + 1
  | none => 1

/-- Lines that stand for the bytes from one location up to another, one behind the other. -/
inductive Tiles : Nat → List Listing → Nat → Prop
  | nil (n : Nat) : Tiles n [] n
  | cons {l : Listing} {rest : List Listing} {n : Nat} :
    l.bytes = m.bytesFrom l.address (widthAt s m l.address) →
    Tiles (l.address.toNat + l.width) rest n → Tiles l.address.toNat (l :: rest) n

/-- Where walks end: at the end of memory, or at an instruction whose operand would pass it. -/
def Ends (n : Nat) : Prop :=
  n = Memory.size ∨ (n = 0xFFFE ∨ n = 0xFFFF) ∧
    ∃ i, s.get? (m.peek (UInt16.ofNat n)) = some i ∧ Memory.size ≤ n + i.mode.width

variable {s} {m} {a b : Address} {l : Listing} {behind : Option Address}

/-! ## One line -/

theorem after?_some {n : Nat} (h : after? a n = some b) : b.toNat = a.toNat + n := by
  unfold after? at h
  split at h
  · rename_i fits
    cases h
    exact UInt16.toNat_ofNat_of_lt' fits
  · cases h

theorem after?_none {n : Nat} (h : after? a n = none) : Memory.size ≤ a.toNat + n := by
  unfold after? at h
  split at h
  · cases h
  · rename_i past
    exact Nat.not_lt.mp past

theorem widthAt_pos (s : InstructionSet) (m : Memory) (a : Address) : 0 < widthAt s m a := by
  unfold widthAt
  split
  · exact Nat.succ_pos _
  · exact Nat.one_pos

/-- A line shows the bytes at its address, as many as belong together there, and the next line is behind
them. -/
theorem line?_ok (h : line? s m a = some (l, behind)) :
    l.address = a ∧ l.bytes = m.bytesFrom a (widthAt s m a) ∧
      a.toNat + widthAt s m a ≤ Memory.size ∧ behind = after? a (widthAt s m a) := by
  have inside : a.toNat < Memory.size := a.toNat_lt
  unfold line? at h
  unfold widthAt
  dsimp only at h
  cases hi : s.get? (m.peek a) with
  | none =>
    rw [hi] at h
    cases h
    exact ⟨rfl, rfl, inside, rfl⟩
  | some i =>
    rw [hi] at h
    dsimp only at h ⊢
    split at h
    · rename_i fits
      cases h
      obtain ⟨last, hlast⟩ := Option.isSome_iff_exists.mp fits
      have reached := after?_some hlast
      have below : last.toNat < Memory.size := last.toNat_lt
      exact ⟨rfl, rfl, by omega, rfl⟩
    · cases h

theorem line?_none (h : line? s m a = none) :
    ∃ i, s.get? (m.peek a) = some i ∧ Memory.size ≤ a.toNat + i.mode.width := by
  unfold line? at h
  dsimp only at h
  cases hi : s.get? (m.peek a) with
  | none =>
    rw [hi] at h
    cases h
  | some i =>
    rw [hi] at h
    dsimp only at h
    split at h
    · cases h
    · rename_i past
      exact ⟨i, rfl, after?_none (Option.not_isSome_iff_eq_none.mp past)⟩

theorem ends_of_line?_none (h : line? s m a = none) : Ends s m a.toNat := by
  obtain ⟨i, entry, past⟩ := line?_none h
  have inside := a.toNat_lt
  have narrow := Processor.width_lt i.mode
  unfold Memory.size at past
  refine .inr ⟨by omega, i, ?_, past⟩
  rwa [UInt16.ofNat_toNat]

/-! ## Along a walk -/

@[simp] theorem lines_none (n : Nat) : lines s m n none = [] := by cases n <;> rfl

theorem lines_succ (n : Nat) (h : line? s m a = some (l, behind)) :
    lines s m (n + 1) (some a) = l :: lines s m n behind := by
  rw [lines, h]

theorem lines_of_line?_none (n : Nat) (h : line? s m a = none) : lines s m n (some a) = [] := by
  cases n with
  | zero => rfl
  | succ n => rw [lines, h]

theorem lines_enough {n k : Nat} (hn : Memory.size - a.toNat ≤ n) (hk : Memory.size - a.toNat ≤ k) :
    lines s m n (some a) = lines s m k (some a) := by
  have inside : a.toNat < Memory.size := a.toNat_lt
  induction n generalizing a k with
  | zero => omega
  | succ n ih =>
    obtain ⟨k, rfl⟩ : ∃ j, k = j + 1 := ⟨k - 1, by omega⟩
    cases hl : line? s m a with
    | none => rw [lines_of_line?_none _ hl, lines_of_line?_none _ hl]
    | some x =>
      obtain ⟨l, behind⟩ := x
      rw [lines_succ n hl, lines_succ k hl]
      cases behind with
      | none => rw [lines_none, lines_none]
      | some b =>
        have reached := after?_some (line?_ok hl).2.2.2.symm
        have wide := widthAt_pos s m a
        rw [ih (a := b) (k := k) (by omega) (by omega) b.toNat_lt]

theorem walk_stop (h : line? s m a = none) : walk s m a = [] := lines_of_line?_none _ h

theorem walk_last (h : line? s m a = some (l, none)) : walk s m a = [l] := by
  rw [walk, Memory.size, lines_succ _ h, lines_none]

theorem walk_more (h : line? s m a = some (l, some b)) : walk s m a = l :: walk s m b := by
  have reached := after?_some (line?_ok h).2.2.2.symm
  have wide := widthAt_pos s m a
  rw [walk, Memory.size, lines_succ _ h]
  refine congrArg (l :: ·) (lines_enough ?_ ?_)
  · unfold Memory.size
    omega
  · unfold Memory.size
    omega

theorem walk_induction {motive : Address → Prop}
    (stop : ∀ a, line? s m a = none → motive a)
    (last : ∀ a l, line? s m a = some (l, none) → motive a)
    (more : ∀ a l b, line? s m a = some (l, some b) → motive b → motive a) (a : Address) : motive a := by
  induction left : Memory.size - a.toNat using Nat.strongRecOn generalizing a with
  | _ left ih =>
    have inside : a.toNat < Memory.size := a.toNat_lt
    cases hl : line? s m a with
    | none => exact stop a hl
    | some x =>
      obtain ⟨l, _ | b⟩ := x
      · exact last a l hl
      · have reached := after?_some (line?_ok hl).2.2.2.symm
        have wide := widthAt_pos s m a
        exact more a l b hl (ih _ (by omega) b rfl)

theorem Tiles.line {rest : List Listing} {n : Nat} (h : line? s m a = some (l, behind))
    (tiles : Tiles s m (a.toNat + widthAt s m a) rest n) : Tiles s m a.toNat (l :: rest) n := by
  obtain ⟨rfl, bytes, -, -⟩ := line?_ok h
  have width : l.width = widthAt s m l.address := by
    rw [Listing.width, bytes, Memory.length_bytesFrom]
  exact .cons bytes (width ▸ tiles)

theorem exists_tiles (a : Address) : ∃ n, Tiles s m a.toNat (walk s m a) n ∧ Ends s m n := by
  induction a using walk_induction (s := s) (m := m) with
  | stop a h =>
    rw [walk_stop h]
    exact ⟨_, .nil _, ends_of_line?_none h⟩
  | last a l h =>
    obtain ⟨-, -, fits, behind⟩ := line?_ok h
    have full : a.toNat + widthAt s m a = Memory.size := Nat.le_antisymm fits (after?_none behind.symm)
    rw [walk_last h]
    exact ⟨_, .line h (.nil _), .inl full⟩
  | more a l b h ih =>
    obtain ⟨n, tiles, ends⟩ := ih
    rw [after?_some (line?_ok h).2.2.2.symm] at tiles
    rw [walk_more h]
    exact ⟨n, .line h tiles, ends⟩

theorem length_walk_le (a : Address) : (walk s m a).length ≤ Memory.size - a.toNat := by
  induction a using walk_induction (s := s) (m := m) with
  | stop a h =>
    rw [walk_stop h]
    exact Nat.zero_le _
  | last a l h =>
    have inside : a.toNat < Memory.size := a.toNat_lt
    rw [walk_last h, List.length_singleton]
    omega
  | more a l b h ih =>
    have inside : b.toNat < Memory.size := b.toNat_lt
    have reached := after?_some (line?_ok h).2.2.2.symm
    have wide := widthAt_pos s m a
    rw [walk_more h, List.length_cons]
    omega

theorem le_address_of_mem_walk (a : Address) : ∀ l ∈ walk s m a, a.toNat ≤ l.address.toNat := by
  induction a using walk_induction (s := s) (m := m) with
  | stop a h =>
    rw [walk_stop h]
    exact nofun
  | last a l h =>
    rw [walk_last h, List.forall_mem_singleton]
    exact Nat.le_of_eq (congrArg UInt16.toNat (line?_ok h).1.symm)
  | more a l b h ih =>
    have reached := after?_some (line?_ok h).2.2.2.symm
    rw [walk_more h, List.forall_mem_cons, (line?_ok h).1]
    exact ⟨Nat.le_refl _, fun k hk => by have := ih k hk; omega⟩

theorem lines_eq_take (n : Nat) (a : Address) : lines s m n (some a) = (walk s m a).take n := by
  induction n generalizing a with
  | zero => rfl
  | succ n ih =>
    cases hl : line? s m a with
    | none => rw [lines_of_line?_none _ hl, walk_stop hl, List.take_nil]
    | some x =>
      obtain ⟨l, _ | b⟩ := x
      · rw [lines_succ n hl, walk_last hl, lines_none, List.take_succ_cons, List.take_nil]
      · rw [lines_succ n hl, walk_more hl, List.take_succ_cons, ih]

/-! ## Requests -/

theorem next_some (h : line? s m a = some (l, behind)) : next s m (some a) = (some l, behind) := by
  rw [next, Option.bind_some, h]

theorem next_of_line?_none (h : line? s m a = none) : next s m (some a) = (none, none) := by
  rw [next, Option.bind_some, h]

theorem cursor_none (n : Nat) : cursor s m n none = none := by
  induction n with
  | zero => rfl
  | succ n ih => exact ih

theorem next_cursor (n : Nat) (a : Address) : (next s m (cursor s m n (some a))).1 = (walk s m a)[n]? := by
  induction n generalizing a with
  | zero =>
    cases hl : line? s m a with
    | none => rw [cursor, next_of_line?_none hl, walk_stop hl]; rfl
    | some x =>
      obtain ⟨l, _ | b⟩ := x
      · rw [cursor, next_some hl, walk_last hl]; rfl
      · rw [cursor, next_some hl, walk_more hl]; rfl
  | succ n ih =>
    cases hl : line? s m a with
    | none => rw [cursor, next_of_line?_none hl, cursor_none, walk_stop hl]; rfl
    | some x =>
      obtain ⟨l, _ | b⟩ := x
      · rw [cursor, next_some hl, cursor_none, walk_last hl]; rfl
      · rw [cursor, next_some hl, ih, walk_more hl, List.getElem?_cons_succ]

/-! ## Walks from within, and ranges -/

/-- A walk from the address of a line yields that line and those behind it. -/
theorem walk_of_split (a : Address) : ∀ before l rest, walk s m a = before ++ l :: rest →
    walk s m l.address = l :: rest := by
  have start {a l behind rest} (h : line? s m a = some (l, behind)) (walked : walk s m a = l :: rest) :
      walk s m l.address = l :: rest := by rwa [(line?_ok h).1]
  induction a using walk_induction (s := s) (m := m) with
  | stop a h =>
    intro before l rest split
    rw [walk_stop h] at split
    cases before <;> cases split
  | last a k h =>
    intro before l rest split
    have walked := walk_last h
    rw [walked] at split
    obtain _ | ⟨j, before⟩ := before
    · cases split
      exact start h walked
    · cases before <;> cases split
  | more a k b h ih =>
    intro before l rest split
    have walked := walk_more h
    rw [walked] at split
    obtain _ | ⟨j, before⟩ := before
    · cases split
      exact start h walked
    · exact ih before l rest (List.cons.inj split).2

/-- As many requests as there are addresses before `last` reach all lines there. -/
theorem takeWhile_lines (n : Nat) (a last : Address) (enough : last.toNat - a.toNat ≤ n) :
    (lines s m n (some a)).takeWhile (·.address < last) = (walk s m a).filter (·.address < last) := by
  -- The lines of a walk come in rising order, so that none is before `last` behind one that is not.
  have beyond (a : Address) (h : last ≤ a) : (walk s m a).filter (·.address < last) = [] := by
    refine List.filter_eq_nil_iff.mpr fun l hl => ?_
    have rising : a ≤ l.address := le_address_of_mem_walk a l hl
    rw [decide_eq_true_iff, UInt16.not_lt]
    exact UInt16.le_trans h rising
  induction n generalizing a with
  | zero =>
    have reached : last.toNat ≤ a.toNat := by omega
    rw [beyond a reached]
    rfl
  | succ n ih =>
    by_cases reached : last ≤ a
    · rw [beyond a reached]
      cases hl : line? s m a with
      | none => rw [lines_of_line?_none _ hl, List.takeWhile_nil]
      | some x =>
        obtain ⟨l, behind⟩ := x
        rw [lines_succ n hl, List.takeWhile_cons_of_neg]
        rw [(line?_ok hl).1, decide_eq_true_iff, UInt16.not_lt]
        exact reached
    · have before : decide (a < last) = true := decide_eq_true (UInt16.not_le.mp reached)
      cases hl : line? s m a with
      | none => rw [lines_of_line?_none _ hl, walk_stop hl, List.takeWhile_nil, List.filter_nil]
      | some x =>
        obtain ⟨l, _ | b⟩ := x
        · rw [lines_succ n hl, walk_last hl, lines_none]
          obtain ⟨rfl, -⟩ := line?_ok hl
          simp only [List.takeWhile_cons, List.filter_cons, before, if_true, List.takeWhile_nil,
            List.filter_nil]
        · have forth := after?_some (line?_ok hl).2.2.2.symm
          have wide := widthAt_pos s m a
          rw [lines_succ n hl, walk_more hl]
          obtain ⟨rfl, -⟩ := line?_ok hl
          simp only [List.takeWhile_cons, List.filter_cons, before, if_true, ih b (by omega)]

/-- **A walk tiles memory.** It is finite: asked for the lines one after the other, it yields them and then
nothing any more. The first line is at its start, each other one is right behind the one before, and the
last one ends where memory ends or where an operand would not fit. A walk from the address of a line yields
what was left from there, and a range holds the lines before its end. -/
theorem walk_tiles (s : InstructionSet) (m : Memory) (a : Address) :
    (∃ n, Tiles s m a.toNat (walk s m a) n ∧ Ends s m n) ∧
    (walk s m a).length ≤ Memory.size - a.toNat ∧
    (∀ n, lines s m n (some a) = (walk s m a).take n) ∧
    (∀ n, (next s m (cursor s m n (some a))).1 = (walk s m a)[n]?) ∧
    (∀ before l rest, walk s m a = before ++ l :: rest → walk s m l.address = l :: rest) ∧
    ∀ last, range s m a last = (walk s m a).filter (·.address < last) :=
  ⟨exists_tiles a, length_walk_le a, fun n => lines_eq_take n a, fun n => next_cursor n a,
    walk_of_split a, fun last => takeWhile_lines _ a last (Nat.le_refl _)⟩

/-- An instruction whose operand would pass the end of memory has no line. -/
example : walk .nmos (Memory.zero.set 0xFFFE 0xAD) 0xFFFE = [] := walk_stop (by decide +kernel)

end Disassembly

end Atari
