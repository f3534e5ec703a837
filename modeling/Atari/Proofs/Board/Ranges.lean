import Atari.Proofs.Board.Poke

/-!
# Ranges that are read and written

A range of memory is read if its end, as a word, is in memory. It is written if its start is an address and its
end is in memory. So the two differ for the empty range behind the last address, and for a range whose end is not
a word: reading it stops the program, or tells that it passes the end of memory, and writing it is refused like
any other one.

* **`Board.ranges_told`**: what reading and writing a range come to.
-/

namespace Atari

/-! ## Addresses and words -/

namespace Address

theorem ofCount_of_lt {n : Nat} (small : n < Memory.size) : ofCount n = .ok (UInt16.ofNat n) := by
  have small : n < 65536 := small
  have clamped : min (n : Int) maxSigned64 = n := by
    unfold maxSigned64
    omega
  rw [ofCount, clamped, ofInt, if_pos (by omega)]
  rfl

theorem ofCount_of_le {n : Nat} (large : Memory.size ≤ n) : ∃ e, ofCount n = .error e := by
  have large : 65536 ≤ n := large
  unfold ofCount ofInt maxSigned64
  rw [if_neg (by omega)]
  exact ⟨_, rfl⟩

end Address

theorem toNat_ofNat_of_le {n : Nat} (small : n ≤ maxSigned64) : (UInt64.ofNat n).toNat = n := by
  unfold maxSigned64 at small
  exact UInt64.toNat_ofNat_of_lt' (show n < 2 ^ 64 by omega)

/-! ## Bytes in memory -/

namespace Memory

variable (checked : Bool) (m : Memory) {location length : UInt64}

theorem getElem?_bytesFrom (a : Address) {n i : Nat} (inside : i < n) :
    (m.bytesFrom a n)[i]? = some (m.peek (a + UInt16.ofNat i)) := by
  induction n generalizing a i with
  | zero => exact absurd inside (Nat.not_lt_zero i)
  | succ n ih =>
    cases i with
    | zero => exact congrArg (fun a => some (m.peek a)) (UInt16.add_zero a).symm
    | succ i => rw [bytesFrom, List.getElem?_cons_succ, ih _ (Nat.lt_of_succ_lt_succ inside), Address.add_ofNat_succ]

theorem bytesFrom_eq {m : Memory} {s : Segment} (fits : s.address.toNat + s.data.length ≤ size)
    (there : ∀ a v, s.byte? a = some v → m.peek a = v) :
    m.bytesFrom s.address s.data.length = s.data := by
  refine List.ext_getElem? fun i => ?_
  by_cases inside : i < s.data.length
  · have place := Address.toNat_add_ofNat (show s.address.toNat + i < 65536 by unfold size at fits; omega)
    have found : s.byte? (s.address + UInt16.ofNat i) = some s.data[i] := by
      unfold Segment.byte?
      rw [place, if_pos (Nat.le_add_right ..), Nat.add_sub_cancel_left, List.getElem?_eq_getElem inside]
    rw [getElem?_bytesFrom m _ inside, there _ _ found, List.getElem?_eq_getElem inside]
  · rw [List.getElem?_eq_none (by rw [length_bytesFrom]; omega), List.getElem?_eq_none (by omega)]

/-! ## Ranges that are read -/

theorem readRange_of_fits (fits : location.toNat + length.toNat < UInt64.size) :
    m.readRange checked location length = some (m.read location.toNat length.toNat) := by
  obtain ⟨stop, sum, place⟩ := wordSum_of_lt checked fits
  unfold readRange read
  rw [sum]
  by_cases inside : stop.toNat ≤ size
  · have slice : m.slice? location stop = some (m.bytesFrom (UInt16.ofNat location.toNat) length.toNat) := by
      unfold slice?
      rw [if_pos ⟨UInt64.le_iff_toNat_le.mpr (by omega), inside⟩, place, Nat.add_sub_cancel_left]
    simp [inside, ← place, slice]
  · simp [inside, ← place]

/-- A range whose end is not a word stops the program: at the sum, if that is looked out for, or else at the
bytes between the two places, unless the sum is refused. -/
theorem readRange_of_wraps (wraps : UInt64.size ≤ location.toNat + length.toNat) :
    m.readRange checked location length =
      if checked ∨ location.toNat + length.toNat - UInt64.size ≤ size then none
      else some (.error (.readOverflow length.toNat location.toNat)) := by
  obtain ⟨stops, stop, sum, place⟩ := wordSum_of_le wraps
  unfold readRange
  cases checked with
  | true =>
    rw [stops]
    rfl
  | false =>
    have below : ¬location ≤ stop := by
      rw [UInt64.le_iff_toNat_le]
      have wraps : 2 ^ 64 ≤ location.toNat + length.toNat := wraps
      have := length.toNat_lt
      have : UInt64.size = 2 ^ 64 := rfl
      omega
    rw [sum]
    by_cases inside : stop.toNat ≤ size
    · simp [inside, ← place, slice?, below]
    · simp [inside, ← place]

end Memory

namespace Board

/-! ## Ranges that are written -/

/-- Bytes are stored in a range as they are from an address on, if it starts at one. -/
theorem writeRange_eq (store : Store) (checked : Bool) (b : Board) (location : UInt64) {data : List Byte}
    (small : data.length ≤ maxSigned64) :
    b.writeRange store checked location data =
      if location.toNat < Memory.size then
        some (b.pokeEach store (UInt16.ofNat location.toNat) data)
      else some (.error (.writeOverflow data.length location.toNat), b) := by
  unfold writeRange
  by_cases inside : location.toNat < Memory.size
  · have count := toNat_ofNat_of_le small
    have start (a : Address) : a.toUInt64.toNat = a.toNat := UInt16.toNat_toUInt64 a
    have fits (a : Address) : a.toUInt64.toNat + (UInt64.ofNat data.length).toNat < UInt64.size := by
      have := a.toNat_lt
      have : UInt64.size = 2 ^ 64 := rfl
      rw [count, start]
      unfold maxSigned64 at small
      omega
    obtain ⟨stop, sum, place⟩ := wordSum_of_lt checked (fits (UInt16.ofNat location.toNat))
    rw [Address.ofCount_of_lt inside, if_pos inside]
    rw [start, count] at place
    dsimp only
    rw [sum, pokeEach, ← place]
    rfl
  · obtain ⟨e, refused⟩ := Address.ofCount_of_le (Nat.le_of_not_lt inside)
    rw [refused, if_neg inside]

theorem writeRange_eq_write (checked : Bool) (b : Board) (location : UInt64) {data : List Byte}
    (small : data.length ≤ maxSigned64) :
    b.writeRange store checked location data = some (match b.write location.toNat data with
      | .ok c => (.ok (), c)
      | .error e => (.error e, b)) := by
  rw [writeRange_eq store checked b location small]
  unfold write
  by_cases inside : location.toNat < Memory.size
  · rw [if_pos inside, if_pos inside, pokeEach_eq]
    rfl
  · rw [if_neg inside, if_neg inside]

/-- **What reading and writing a range come to.** A range in memory is read and written, but for the empty one
behind the last address, which is read and not written; one that passes the end is refused, and nothing is
stored. Reading a range whose end is not a word stops the program, unless sums wrap around and this one does not
come to lie in memory. Bytes that were written where there are no hooks are read again. No list in memory is
longer than the largest signed word. -/
theorem ranges_told (checked : Bool) (depth : Nat) (b : Board) (location : UInt64) :
    let store := storeWithin depth
    (∀ length : UInt64, let stop := location.toNat + length.toNat
      (stop ≤ Memory.size → b.memory.readRange checked location length =
        some (.ok (b.memory.bytesFrom (UInt16.ofNat location.toNat) length.toNat))) ∧
      (Memory.size < stop → stop < UInt64.size → b.memory.readRange checked location length =
        some (.error (.readOverflow length.toNat location.toNat))) ∧
      (UInt64.size ≤ stop → b.memory.readRange checked location length =
        if checked ∨ stop - UInt64.size ≤ Memory.size then none
        else some (.error (.readOverflow length.toNat location.toNat)))) ∧
    ∀ data : List Byte, data.length ≤ maxSigned64 → let stop := location.toNat + data.length
      (stop ≤ Memory.size → location.toNat ≠ Memory.size →
        ∃ c, b.writeRange store checked location data = some (.ok (), c)) ∧
      (Memory.size < stop ∨ location.toNat = Memory.size → b.writeRange store checked location data =
        some (.error (.writeOverflow data.length location.toNat), b)) ∧
      (stop ≤ Memory.size → location.toNat ≠ Memory.size →
        (∀ x : Address, location.toNat ≤ x.toNat → x.toNat < stop → b.hooks.on x = []) →
        ∃ m, b.writeRange store checked location data = some (.ok (), { b with memory := m }) ∧
          m.readRange checked location (UInt64.ofNat data.length) = some (.ok data)) := by
  intro store
  have words : Memory.size < UInt64.size := by decide
  have address (below : location.toNat < Memory.size) : (UInt16.ofNat location.toNat).toNat = location.toNat :=
    UInt16.toNat_ofNat_of_lt' below
  refine ⟨fun length => ⟨fun inside => ?_, fun passes fits => ?_, b.memory.readRange_of_wraps checked⟩,
    fun data small => ⟨fun inside start => ?_, fun passes => ?_, fun inside start free => ?_⟩⟩
  · rw [Memory.readRange_of_fits checked _ (by omega), Memory.read, if_pos inside]
  · rw [Memory.readRange_of_fits checked _ fits, Memory.read, if_neg (by omega)]
  all_goals rw [writeRange_eq store checked b location small]
  · rw [if_pos (by omega), b.pokeEach_of_fits store (by rw [address (by omega)]; exact inside)]
    exact ⟨_, rfl⟩
  · by_cases below : location.toNat < Memory.size
    · rw [if_pos below, b.pokeEach_of_not_fits store (by rw [address below]; omega), address below]
    · rw [if_neg below]
  · have below : location.toNat < Memory.size := by omega
    rw [← address below] at inside free
    obtain ⟨m, stored, bytes⟩ := storeAll_free depth (free_of_range inside free)
    refine ⟨m, ?_, ?_⟩
    · rw [if_pos below, b.pokeEach_of_fits store inside, stored]
    · have count := toNat_ofNat_of_le small
      have found : m.bytesFrom (UInt16.ofNat location.toNat) data.length = data :=
        Memory.bytesFrom_eq (s := ⟨UInt16.ofNat location.toNat, data⟩) inside fun x v byte => by
          rw [bytes inside, byte, Option.getD_some]
      rw [address below] at inside
      rw [Memory.readRange_of_fits checked m (by rw [count]; omega), count, Memory.read, if_pos inside, found]

/-- The empty range behind the last address is read and not written, and reading two bytes from the last word on
stops the program. -/
theorem write_refuses_empty :
    let b : Board := {}
    (∀ checked, b.memory.readRange checked 65536 0 = some (.ok [])) ∧
      (∀ checked, b.writeRange store checked 65536 [] = some (.error (.writeOverflow 0 65536), b)) ∧
      ∀ checked, b.memory.readRange checked 0xFFFFFFFFFFFFFFFF 2 = none := by
  refine ⟨?_, ?_, ?_⟩ <;> rintro (_ | _) <;> rfl

end Board

end Atari
