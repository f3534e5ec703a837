import Atari.Binary
import Atari.Board.Range
import Atari.Proofs.Board.Deeds
import Atari.Proofs.Words

/-!
# Bytes stored in a row

A list of bytes is stored as a whole or not at all. The end of the range is looked at first, so that no
byte is refused on the way, whatever the hooks do that are called between them. What hooks do depends on the
bytes that were stored so far alone, and so a list can be cut anywhere.

* `Board.storeEach_eq`: no byte is refused on the way; `Board.pokeEach`: bytes stored one by one from an
  address on, with the board that is left if they are refused; `Board.pokeEach_eq`: they are stored as a whole;
* `Board.pokeDeeds`: what happens meanwhile;
* `Segment.byte?`: the byte that a segment has for an address; `Board.storeAll_free`: without hooks in the
  range these are the bytes that change;
* **`Board.pokes_join`**: all of this for any hooks.
-/

namespace Atari

/-! ## Segments in memory -/

namespace Segment

/-- The byte that a segment has for an address, if it covers it. -/
def byte? (s : Segment) (a : Address) : Option Byte :=
  if s.address.toNat ≤ a.toNat then s.data[a.toNat - s.address.toNat]? else none

theorem byte?_cons {a : Address} {v : Byte} {data : List Byte}
    (fits : a.toNat + (v :: data).length ≤ Memory.size) (c : Address) :
    byte? ⟨a, v :: data⟩ c = (byte? ⟨a + 1, data⟩ c).or (if a = c then some v else none) := by
  have next : (a + 1).toNat = (a.toNat + 1) % 65536 := UInt16.toNat_add a 1
  have inside : a.toNat + (data.length + 1) ≤ 65536 := fits
  have := c.toNat_lt
  -- The segment behind wraps around only if it is empty.
  have behind (above : ¬a.toNat < c.toNat) : byte? ⟨a + 1, data⟩ c = none := by
    unfold byte?
    by_cases last : data = []
    · simp [last]
    · have := List.length_pos_iff.mpr last
      exact if_neg (by dsimp only; omega)
  by_cases below : a.toNat < c.toNat
  · have apart : a ≠ c := fun e => by simp [e] at below
    have index : c.toNat - a.toNat = (c.toNat - (a + 1).toNat) + 1 := by omega
    unfold byte?
    dsimp only
    rw [if_pos (Nat.le_of_lt below), if_pos (by omega), if_neg apart, Option.or_none, index,
      List.getElem?_cons_succ]
  · rw [behind below, Option.none_or]
    unfold byte?
    by_cases same : a = c
    · simp [same]
    · have apart : a.toNat ≠ c.toNat := fun e => same (UInt16.toNat_inj.mp e)
      rw [if_neg same]
      exact if_neg (by dsimp only; omega)

end Segment

namespace Board

/-! ## One byte after the other -/

section Store

variable (store : Store)

theorem storeEach_eq (b : Board) {location : Nat} {data : List Byte}
    (fits : location + data.length ≤ Memory.size) :
    b.storeEach store location data = (.ok (), b.storeAll store (UInt16.ofNat location) data) := by
  induction data generalizing b location with
  | nil => rfl
  | cons v data ih =>
    have inside : location + 1 + data.length ≤ Memory.size := by
      rw [List.length_cons] at fits
      omega
    have next : UInt16.ofNat (location + 1) = UInt16.ofNat location + 1 := UInt16.ofNat_add location 1
    rw [storeEach, if_pos (by omega), ih _ inside, next]
    rfl

def pokeEach (b : Board) (a : Address) (data : List Byte) : Except MemoryError Unit × Board :=
  b.pokeUpTo store a (a.toNat + data.length) data

theorem pokeEach_eq (b : Board) (a : Address) (data : List Byte) :
    b.pokeEach store a data = match b.pokeWith store a data with
      | .ok c => (.ok (), c)
      | .error e => (.error e, b) := by
  unfold pokeEach pokeUpTo pokeWith
  by_cases fits : a.toNat + data.length ≤ Memory.size
  · rw [if_pos fits, if_pos fits, storeEach_eq store b fits, UInt16.ofNat_toNat]
  · rw [if_neg fits, if_neg fits]

section Range

variable (b : Board) {a : Address} {data : List Byte}

theorem pokeEach_of_fits (fits : a.toNat + data.length ≤ Memory.size) :
    b.pokeEach store a data = (.ok (), b.storeAll store a data) := by
  rw [pokeEach_eq, pokeWith, if_pos fits]

theorem pokeEach_of_not_fits (passes : ¬a.toNat + data.length ≤ Memory.size) :
    b.pokeEach store a data = (.error (.writeOverflow data.length a.toNat), b) := by
  rw [pokeEach_eq, pokeWith, if_neg passes]

end Range

/-! ## Lists that are cut -/

theorem storeAll_append (b : Board) (a : Address) (xs ys : List Byte) :
    b.storeAll store a (xs ++ ys) =
      (b.storeAll store a xs).storeAll store (a + UInt16.ofNat xs.length) ys := by
  induction xs generalizing b a with
  | nil => exact congrArg (b.storeAll store · ys) (UInt16.add_zero a).symm
  | cons v xs ih =>
    rw [List.cons_append, storeAll, storeAll, ih, List.length_cons, Address.add_ofNat_succ]

theorem allDeeds_append (during : Board → Address → Byte → List Deed) (b : Board) (a : Address)
    (xs ys : List Byte) :
    b.allDeeds store during a (xs ++ ys) = b.allDeeds store during a xs ++
      (b.storeAll store a xs).allDeeds store during (a + UInt16.ofNat xs.length) ys := by
  induction xs generalizing b a with
  | nil => exact congrArg (b.allDeeds store during · ys) (UInt16.add_zero a).symm
  | cons v xs ih =>
    rw [List.cons_append, allDeeds, allDeeds, ih, List.append_assoc, storeAll, List.length_cons,
      Address.add_ofNat_succ]

end Store

/-- What happens while bytes are stored from an address on. -/
def pokeDeeds (depth : Nat) (b : Board) (a : Address) (data : List Byte) : List Deed :=
  (Script.poke a data fun _ => .stop).deeds (storeWithin depth) (deedsWithin depth) b

section Deeds

variable (depth : Nat) (b : Board) {a : Address} {data : List Byte}

theorem pokeDeeds_of_fits (fits : a.toNat + data.length ≤ Memory.size) :
    b.pokeDeeds depth a data = b.allDeeds (storeWithin depth) (deedsWithin depth) a data := by
  unfold pokeDeeds Script.deeds pokeWith
  rw [if_pos fits]
  exact List.append_nil _

theorem pokeDeeds_of_not_fits (passes : ¬a.toNat + data.length ≤ Memory.size) :
    b.pokeDeeds depth a data = [] := by
  unfold pokeDeeds Script.deeds pokeWith
  rw [if_neg passes]
  rfl

end Deeds

/-! ## Ranges without hooks -/

/-- Without hooks in a range, bytes that are stored there change memory alone. -/
theorem storeAll_free {b : Board} {a : Address} {data : List Byte} (depth : Nat)
    (free : ∀ i < data.length, b.hooks.on (a + UInt16.ofNat i) = []) :
    ∃ m, b.storeAll (storeWithin depth) a data = { b with memory := m } ∧
      (a.toNat + data.length ≤ Memory.size →
        ∀ c, m.peek c = ((⟨a, data⟩ : Segment).byte? c).getD (b.peek c)) := by
  induction data generalizing b a with
  | nil => exact ⟨b.memory, rfl, fun _ c => by simp [Segment.byte?, Board.peek]⟩
  | cons v data ih =>
    have on : b.hooks.on a = [] := by
      have first := free 0 (Nat.succ_pos _)
      rwa [show UInt16.ofNat 0 = 0 from rfl, UInt16.add_zero] at first
    have others : ∀ i < data.length, (b.setByte a v).hooks.on (a + 1 + UInt16.ofNat i) = [] := by
      intro i inside
      rw [← Address.add_ofNat_succ]
      exact free (i + 1) (Nat.succ_lt_succ inside)
    obtain ⟨m, stored, bytes⟩ := ih others
    rw [storeAll, storeWithin_of_on_eq_nil on]
    refine ⟨m, stored, fun fits c => ?_⟩
    have inside : (a + 1).toNat + data.length ≤ Memory.size := by
      have next : (a + 1).toNat = (a.toNat + 1) % 65536 := UInt16.toNat_add a 1
      have inside : a.toNat + (data.length + 1) ≤ 65536 := fits
      show _ ≤ 65536
      omega
    rw [Segment.byte?_cons fits, bytes inside, peek_setByte]
    cases Segment.byte? ⟨a + 1, data⟩ c with
    | some v => rfl
    | none => split <;> rfl

theorem free_of_range {b : Board} {a : Address} {n : Nat} (fits : a.toNat + n ≤ Memory.size)
    (free : ∀ x : Address, a.toNat ≤ x.toNat → x.toNat < a.toNat + n → b.hooks.on x = []) :
    ∀ i < n, b.hooks.on (a + UInt16.ofNat i) = [] := by
  intro i inside
  have top : a.toNat + n ≤ 65536 := fits
  have place := Address.toNat_add_ofNat (show a.toNat + i < 65536 by omega)
  exact free _ (by omega) (by omega)

/-- **Bytes are stored as a whole or not at all**, whatever hooks there are and whatever they do: they are
refused if their range passes the end of memory, and then nothing is stored and no hook is called; otherwise
none of them is refused on the way. A list that is cut in memory is stored like its two parts one after the
other: this leaves the same board, and the same happens meanwhile. Without hooks in the range, its bytes
change and nothing else. -/
theorem pokes_join (depth : Nat) (b : Board) (a : Address) :
    let store := storeWithin depth
    (∀ data, b.pokeEach store a data = match b.pokeWith store a data with
      | .ok c => (.ok (), c)
      | .error e => (.error e, b)) ∧
    (∀ data, Memory.size < a.toNat + data.length →
      b.pokeEach store a data = (.error (.writeOverflow data.length a.toNat), b) ∧
        b.pokeDeeds depth a data = []) ∧
    (∀ data, a.toNat + data.length ≤ Memory.size → ∃ c, b.pokeEach store a data = (.ok (), c)) ∧
    (∀ xs ys, a.toNat + (xs ++ ys).length ≤ Memory.size → a.toNat + xs.length ≤ 0xFFFF →
      ∃ c d, let behind := a + UInt16.ofNat xs.length
        behind.toNat = a.toNat + xs.length ∧
        b.pokeEach store a xs = (.ok (), c) ∧ c.pokeEach store behind ys = (.ok (), d) ∧
        b.pokeEach store a (xs ++ ys) = (.ok (), d) ∧
        b.pokeDeeds depth a (xs ++ ys) = b.pokeDeeds depth a xs ++ c.pokeDeeds depth behind ys) ∧
    (∀ data, a.toNat + data.length ≤ Memory.size →
      (∀ x : Address, a.toNat ≤ x.toNat → x.toNat < a.toNat + data.length → b.hooks.on x = []) →
      ∃ m, b.pokeEach store a data = (.ok (), { b with memory := m }) ∧
        ∀ x, m.peek x = ((⟨a, data⟩ : Segment).byte? x).getD (b.peek x)) := by
  intro store
  refine ⟨b.pokeEach_eq store a, fun data passes => ⟨b.pokeEach_of_not_fits store (by omega),
    b.pokeDeeds_of_not_fits depth (by omega)⟩, fun data fits => ⟨_, b.pokeEach_of_fits store fits⟩,
    fun xs ys fits cut => ?_, fun data fits free => ?_⟩
  · have first : a.toNat + xs.length ≤ Memory.size := Nat.le_succ_of_le cut
    have place := Address.toNat_add_ofNat (Nat.lt_succ_of_le cut)
    have second : (a + UInt16.ofNat xs.length).toNat + ys.length ≤ Memory.size := by
      rw [List.length_append] at fits
      omega
    refine ⟨_, _, place, b.pokeEach_of_fits store first, pokeEach_of_fits store _ second, ?_, ?_⟩
    · rw [b.pokeEach_of_fits store fits, storeAll_append]
    · rw [pokeDeeds_of_fits depth b fits, pokeDeeds_of_fits depth b first,
        pokeDeeds_of_fits depth _ second, allDeeds_append]
  · obtain ⟨m, stored, bytes⟩ := storeAll_free depth (free_of_range fits free)
    exact ⟨m, (b.pokeEach_of_fits store fits).trans (congrArg _ stored), bytes fits⟩

end Board

end Atari
