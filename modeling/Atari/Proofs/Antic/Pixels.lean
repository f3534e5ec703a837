import Atari.Antic.Playfield

/-!
# How many pixels a line has

A byte of screen memory becomes as many pixels as its mode says, whatever its kind, and the borders fill up
what the bytes of a line leave of 384 pixels.

* **`Playfield.length_line`**: the pixels of a mode line.
-/

namespace Atari

/-! ## Modes -/

theorem Mode.pixels_of_mem_table {mode : Mode} (h : mode ∈ table) :
    match mode.kind with
    | .hiResText | .multiColorText | .hiResMap => mode.pixelsPerByte = 8
    | .wideText | .map1 => 8 * (mode.pixelsPerByte / 8) = mode.pixelsPerByte
    | .map2 => 4 * (mode.pixelsPerByte / 4) = mode.pixelsPerByte := by
  simp only [table, text40, List.mem_cons, List.not_mem_nil, or_false] at h
  rcases h with rfl | rfl | rfl | rfl | rfl | rfl | rfl | rfl | rfl | rfl | rfl | rfl | rfl | rfl
  all_goals decide

theorem Mode.fits_of_mem_table {mode : Mode} (h : mode ∈ table) (w : PlayfieldWidth) :
    w.bytes mode.bytes ≤ w.scrolled.bytes mode.bytes ∧
      w.bytes mode.bytes * mode.pixelsPerByte ≤ Playfield.lineWidth ∧
      (Playfield.lineWidth - w.bytes mode.bytes * mode.pixelsPerByte) % 2 = 0 := by
  simp only [table, text40, List.mem_cons, List.not_mem_nil, or_false] at h
  rcases h with rfl | rfl | rfl | rfl | rfl | rfl | rfl | rfl | rfl | rfl | rfl | rfl | rfl | rfl
  all_goals cases w <;> decide

namespace Playfield

variable (m : Memory) {mode : Mode}

/-! ## Bytes -/

theorem length_oneBit (v foreground background : Byte) (pixelWidth : Nat) :
    (oneBit v foreground background pixelWidth).length = 8 * pixelWidth := by
  simp [oneBit, bitColors]
  omega

theorem length_twoBits (v : Byte) (color : Nat → Byte) (pixelWidth : Nat) :
    (twoBits v color pixelWidth).length = 4 * pixelWidth := by
  simp [twoBits]
  omega

theorem length_unit (h : mode ∈ Mode.table) (row : Nat) (v : Byte) :
    (unit m mode row v).length = mode.pixelsPerByte := by
  have pixels := Mode.pixels_of_mem_table h
  unfold unit
  revert pixels
  cases mode.kind with
  | hiResText | hiResMap => exact Eq.symm
  | multiColorText => exact fun pixels => (length_twoBits ..).trans pixels.symm
  | wideText | map1 => exact fun pixels => (length_oneBit ..).trans pixels
  | map2 => exact fun pixels => (length_twoBits ..).trans pixels

/-! ## Lines -/

theorem shown_le_fetched (h : mode ∈ Mode.table) (scrolls : Bool) :
    shown m mode ≤ fetched m mode scrolls := by
  cases scrolls with
  | false => exact Nat.le_refl _
  | true => exact (Mode.fits_of_mem_table h (Video.width m)).1

theorem border_add (h : mode ∈ Mode.table) :
    shown m mode * mode.pixelsPerByte ≤ lineWidth ∧
      border m mode + shown m mode * mode.pixelsPerByte + border m mode = lineWidth := by
  obtain ⟨-, fits, even⟩ := Mode.fits_of_mem_table h (Video.width m)
  refine ⟨fits, ?_⟩
  unfold border shown
  omega

/-- **A mode line has 384 pixels**, unless the playfield is disabled. -/
theorem length_line (h : mode ∈ Mode.table) (scrolls : Bool) (memoryScan : Address) (row : Nat) :
    (line m mode scrolls memoryScan row).length =
      if Video.width m = .disabled then 0 else lineWidth := by
  have bytes : ((addresses m mode scrolls memoryScan).flatMap fun a =>
      unit m mode row (m.peek a)).length = shown m mode * mode.pixelsPerByte := by
    rw [List.length_flatMap, List.map_congr_left fun a _ => length_unit m h row (m.peek a),
      List.map_const', List.sum_replicate_nat, addresses, List.length_map, List.length_range]
  unfold line
  split
  · rfl
  · rw [List.length_append, List.length_append, List.length_replicate, bytes]
    exact (border_add m h).2

theorem length_emptyLine :
    (emptyLine m).length = if Video.width m = .disabled then 0 else lineWidth := by
  unfold emptyLine
  split
  · rfl
  · exact List.length_replicate ..

end Playfield

end Atari
