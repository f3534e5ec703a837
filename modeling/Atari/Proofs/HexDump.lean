import Atari.Machine.Printed
import Atari.Proofs.AddressText
import Mathlib.Data.List.Basic

/-!
# Reading hex dumps

A dump shows the bytes of a part of memory up to its end, sixteen in a row, and nothing is lost: the columns of digits
and the characters behind the bar can be read again.

* `HexDump.shownBytes`, `HexDump.shownText`: what a line shows in front of its bar, and behind it; `HexDump.Tells`: a
  line that shows the bytes of a place;
* **`Memory.printedDump_told`**: the lines of a dump.
-/

namespace Atari

namespace HexDump

/-! ## Reading a line -/

/-- The bytes that columns show, two digits and a blank for each. -/
def readColumns : List Char → List Byte
  | x :: y :: ' ' :: cs => match hexValue? x, hexValue? y with
    | some m, some n => UInt8.ofNat (m * 16 + n) :: readColumns cs
    | _, _ => []
  | _ => []

/-- The bytes that a line shows between its colon and its bar. -/
def shownBytes (line : String) : List Byte :=
  readColumns (((line.toList.dropWhile (· ≠ ':')).drop 2).takeWhile (· ≠ '|'))

/-- The characters that a line shows behind its bar. -/
def shownText (line : String) : List Char := (line.toList.dropWhile (· ≠ '|')).drop 2

variable {location : Nat} {bytes : List Byte}

theorem columns_cons (v : Byte) (bytes : List Byte) : columns (v :: bytes) =
    hexDigit .upper (v.toNat / 16) :: hexDigit .upper v.toNat :: ' ' :: columns bytes := by
  simp [columns, hexDigits]

theorem length_columns (bytes : List Byte) : (columns bytes).length = 3 * bytes.length := by
  induction bytes with
  | nil => rfl
  | cons v bytes ih =>
    simp only [columns_cons, List.length_cons, ih]
    omega

theorem readColumns_columns (bytes : List Byte) (k : Nat) :
    readColumns (columns bytes ++ List.replicate k ' ') = bytes := by
  induction bytes with
  | nil =>
    match k with
    | 0 | 1 | 2 | k + 3 => simp [columns, readColumns, List.replicate_succ, hexValue?]
  | cons v bytes ih =>
    have hv := v.toNat_lt
    have halves : v.toNat / 16 % 16 * 16 + v.toNat % 16 = v.toNat := by omega
    simp [columns_cons, readColumns, hexValue?_hexDigit, ih, halves]

theorem hexDigit_ne {x : Char} (h : hexValue? x = none) (n : Nat) : hexDigit .upper n ≠ x := by
  rintro rfl
  simp [hexValue?_hexDigit] at h

theorem not_mem_columns {x : Char} (digit : hexValue? x = none) (blank : x ≠ ' ') (bytes : List Byte) :
    x ∉ columns bytes := by
  induction bytes with
  | nil => simp [columns]
  | cons v bytes ih => simp [columns_cons, ih, blank, Ne.symm (hexDigit_ne digit _)]

theorem toList_row (inside : location < 65536) (bytes : List Byte) : (row location bytes).toList =
    hexDigits .upper 4 location ++ [' ', ':', ' '] ++
      (columns bytes ++ List.replicate (48 - 3 * bytes.length) ' ') ++ ['|', ' '] ++ bytes.map printable := by
  have small : location % locations = location := Nat.mod_eq_of_lt (by rw [locations]; omega)
  rw [row, small, hex_of_lt (show location < 16 ^ 4 from inside) (by decide)]
  simp [padRight, rowLength, length_columns]

theorem not_mem_hexDigits {x : Char} (digit : hexValue? x = none) (w n : Nat) : x ∉ hexDigits .upper w n := by
  intro h
  rcases exists_of_mem_hexDigits h with ⟨m, rfl⟩
  exact hexDigit_ne digit m rfl

theorem takeWhile_append_cons {x : Char} {front : List Char} (h : x ∉ front) (rest : List Char) :
    (front ++ x :: rest).takeWhile (· ≠ x) = front ∧ (front ++ x :: rest).dropWhile (· ≠ x) = x :: rest := by
  have kept : ∀ y ∈ front, decide (y ≠ x) = true := by
    intro y hy
    simp
    rintro rfl
    exact h hy
  constructor
  · rw [List.takeWhile_append_of_pos kept]
    simp
  · rw [List.dropWhile_append_of_pos kept]
    simp

theorem shownBytes_row (inside : location < 65536) (bytes : List Byte) : shownBytes (row location bytes) = bytes := by
  have colon : ':' ∉ hexDigits .upper 4 location ++ [' '] := by
    simp [not_mem_hexDigits (x := ':') (by decide)]
  have bar : '|' ∉ columns bytes ++ List.replicate (48 - 3 * bytes.length) ' ' := by
    simp [not_mem_columns (x := '|') (by decide) (by decide)]
  have parts : (row location bytes).toList = (hexDigits .upper 4 location ++ [' ']) ++ ':' :: ' ' ::
      ((columns bytes ++ List.replicate (48 - 3 * bytes.length) ' ') ++ '|' :: ' ' :: bytes.map printable) := by
    simp [toList_row inside]
  rw [shownBytes, parts, (takeWhile_append_cons colon _).2, List.drop_succ_cons, List.drop_succ_cons, List.drop_zero,
    (takeWhile_append_cons bar _).1, readColumns_columns]

/-- The first bar of a line with at most sixteen bytes stands behind the 48 places of their columns, whatever the
bytes are. -/
theorem row_parts (inside : location < 65536) (short : bytes.length ≤ rowLength) : ∃ front,
    (row location bytes).toList = front ++ '|' :: ' ' :: bytes.map printable ∧ '|' ∉ front ∧ front.length = 55 ∧
    hexDigits .upper 4 location <+: front := by
  refine ⟨hexDigits .upper 4 location ++ ([' ', ':', ' '] ++
    (columns bytes ++ List.replicate (48 - 3 * bytes.length) ' ')), ?_, ?_, ?_, List.prefix_append ..⟩
  · simp [toList_row inside]
  · simp [not_mem_hexDigits (x := '|') (by decide), not_mem_columns (x := '|') (by decide) (by decide)]
  · simp [length_hexDigits, length_columns, rowLength] at short ⊢
    omega

/-- What a line of a dump tells of the bytes of a part: where they are, and they themselves, twice. -/
structure Tells (line : String) (location : Nat) (part : List Byte) : Prop where
  location : hexDigits .upper 4 location <+: line.toList
  bar : line.toList.idxOf '|' = 55
  bytes : shownBytes line = part
  text : shownText line = part.map fun v => if 0x20 ≤ v ∧ v ≤ 0x7E then Char.ofNat v.toNat else '.'

theorem row_tells (inside : location < 65536) (short : bytes.length ≤ rowLength) :
    Tells (row location bytes) location bytes := by
  rcases row_parts inside short with ⟨front, parts, bar, length, location_prefix⟩
  refine ⟨?_, ?_, shownBytes_row inside bytes, ?_⟩
  · rw [parts]
    exact location_prefix.trans (List.prefix_append ..)
  · rw [parts, List.idxOf_append_of_notMem bar, List.idxOf_cons_self, length]
  · rw [shownText, parts, (takeWhile_append_cons bar _).2]
    rfl

/-! ## The rows -/

theorem rows_of_ne_nil (location : Nat) (some : bytes ≠ []) : rows location bytes =
    row location (bytes.take rowLength) :: rows (location + rowLength) (bytes.drop rowLength) := by
  rw [rows, dif_neg some]

theorem rows_nil (location : Nat) : rows location [] = [] := by
  rw [rows, dif_pos rfl]

theorem length_rows (location : Nat) (bytes : List Byte) :
    (rows location bytes).length = (bytes.length + 15) / 16 := by
  fun_induction rows location bytes with
  | case1 location => rfl
  | case2 location bytes some ih =>
    have := List.length_pos_iff.2 some
    rw [List.length_cons, ih, List.length_drop, rowLength]
    omega

theorem getElem?_rows {i : Nat} (h : 16 * i < bytes.length) (location : Nat) :
    (rows location bytes)[i]? = some (row (location + 16 * i) ((bytes.drop (16 * i)).take 16)) := by
  induction i generalizing location bytes with
  | zero => simp [rows_of_ne_nil location (List.length_pos_iff.1 h), rowLength]
  | succ i ih =>
    have some : bytes ≠ [] := List.length_pos_iff.1 (by omega)
    have fewer : 16 * i < (bytes.drop 16).length := by
      simp
      omega
    have place : location + 16 + 16 * i = location + 16 * (i + 1) := by omega
    have behind : 16 + 16 * i = 16 * (i + 1) := by omega
    rw [rows_of_ne_nil location some, List.getElem?_cons_succ, rowLength, ih fewer, List.drop_drop, place, behind]

theorem flatMap_rows {α : Type} {read : String → List α} {f : Byte → α}
    (each : ∀ location < 65536, ∀ part, part.length ≤ rowLength → read (row location part) = part.map f)
    (fits : location + bytes.length ≤ 65536) : (rows location bytes).flatMap read = bytes.map f := by
  fun_induction rows location bytes with
  | case1 location => rfl
  | case2 location bytes some ih =>
    have := List.length_pos_iff.2 some
    rcases Nat.le_total bytes.length rowLength with short | long
    · rw [List.drop_eq_nil_of_le short, rows_nil, List.flatMap_singleton, List.take_of_length_le short]
      exact each location (by omega) bytes short
    · have rest : location + rowLength + (bytes.drop rowLength).length ≤ 65536 := by
        simp
        omega
      rw [List.flatMap_cons, each location (by omega) _ (List.length_take_le ..), ih rest, ← List.map_append,
        List.take_append_drop]

end HexDump

/-! ## The bytes of a dump -/

theorem Address.checkedAdd_ofNat {n : Nat} (small : n < 2 ^ 63) (a : Address) : a.checkedAdd (UInt64.ofNat n) =
    if a.toNat + n < 65536 then some (UInt16.ofNat (a.toNat + n)) else none := by
  rw [checkedAdd, UInt64.toInt64_ofNat', Int64.toInt_ofNat_of_lt small, ofInt]
  split_ifs with inside fits fits
  · rfl
  · omega
  · omega
  · rfl

namespace Memory

theorem bytesBehind_eq (m : Memory) (a : Address) {offset : Nat} (inside : a.toNat + offset ≤ 65536) (n : Nat) :
    m.bytesBehind a offset n =
      (List.range' (a.toNat + offset) (min n (65536 - (a.toNat + offset)))).map fun k => m.peek (UInt16.ofNat k) := by
  induction n generalizing offset with
  | zero => simp [bytesBehind]
  | succ n ih =>
    rw [bytesBehind, Address.checkedAdd_ofNat (by omega)]
    rcases Nat.lt_or_ge (a.toNat + offset) 65536 with fits | behind
    · have count : min (n + 1) (65536 - (a.toNat + offset)) = min n (65536 - (a.toNat + (offset + 1))) + 1 := by omega
      have next : a.toNat + (offset + 1) ≤ 65536 := fits
      rw [if_pos fits, count, List.range'_succ, List.map_cons]
      simp [ih next, Nat.add_assoc]
    · have count : min (n + 1) (65536 - (a.toNat + offset)) = 0 := by omega
      rw [if_neg (Nat.not_lt.mpr behind), count]
      rfl

theorem clipped_eq (m : Memory) (a : Address) (length : Nat) : m.clipped a length =
    (List.range' a.toNat (min (a.toNat + length) 65536 - a.toNat)).map fun k => m.peek (UInt16.ofNat k) := by
  have inside := a.toNat_lt
  have count : min length (65536 - a.toNat) = min (a.toNat + length) 65536 - a.toNat := by omega
  have first : a.toNat + 0 ≤ 65536 := by omega
  rw [clipped, bytesBehind_eq m a first, Nat.add_zero, count]

/-- **The lines of a dump show the bytes up to its end, or up to the end of memory.** Without bytes there is one empty
line. Otherwise there is one line for sixteen bytes, and the last one has the rest: it starts with the place of its
first byte, its bar is where that of the other lines is, and its bytes are read in its columns. Behind the bar there is
a character for each byte. All lines together show all the bytes. -/
theorem printedDump_told (m : Memory) (a : Address) (length : Nat) :
    let stop := min (a.toNat + length) 65536
    let bytes := (List.range' a.toNat (stop - a.toNat)).map fun k => m.peek (UInt16.ofNat k)
    let lines := m.printedDump a length
    (bytes = [] → lines = [""]) ∧
      (bytes ≠ [] → lines.length = (bytes.length + 15) / 16 ∧
        ∀ i line, lines[i]? = some line → 16 * i < bytes.length ∧
          HexDump.Tells line (a.toNat + 16 * i) ((bytes.drop (16 * i)).take 16)) ∧
      lines.flatMap HexDump.shownBytes = bytes ∧
      lines.flatMap HexDump.shownText =
        bytes.map fun v => if 0x20 ≤ v ∧ v ≤ 0x7E then Char.ofNat v.toNat else '.' := by
  intro stop bytes lines
  have inside := a.toNat_lt
  have fits : a.toNat + bytes.length ≤ 65536 := by
    simp [bytes, stop]
    omega
  have shown : lines = HexDump.lines a.toNat bytes := congrArg (HexDump.lines a.toNat) (clipped_eq m a length)
  rcases Decidable.em (bytes = []) with none | some
  · have empty : lines = [""] := by rw [shown, HexDump.lines, if_pos none]
    refine ⟨fun _ => empty, fun some => absurd none some, ?_, ?_⟩
    · rw [empty, none]
      rfl
    · rw [empty, none]
      rfl
  · have shown : lines = HexDump.rows a.toNat bytes := by rw [shown, HexDump.lines, if_neg some]
    refine ⟨fun none => absurd none some, fun _ => ⟨shown ▸ HexDump.length_rows .., fun i line h => ?_⟩, ?_, ?_⟩
    · have few : i < (bytes.length + 15) / 16 := by
        rw [← HexDump.length_rows a.toNat, ← shown]
        exact (List.getElem?_eq_some_iff.mp h).1
      have more : 16 * i < bytes.length := by omega
      rw [shown, HexDump.getElem?_rows more, Option.some_inj] at h
      rw [← h]
      exact ⟨more, HexDump.row_tells (by omega) (List.length_take_le ..)⟩
    · rw [shown, HexDump.flatMap_rows (f := id) _ fits, List.map_id]
      intro location inside part _
      rw [HexDump.shownBytes_row inside, List.map_id]
    · rw [shown]
      exact HexDump.flatMap_rows (fun _ inside _ short => (HexDump.row_tells inside short).text) fits

end Memory

end Atari
