import Atari.FrameBuffer
import Mathlib.Data.List.DropRight

/-!
# Rows of a frame buffer

The cells of a picture stand in one row, and a beam that runs freely tells where the next pixel goes. For those who
draw, they are lines: what is drawn between two syncs is one row of the picture, cut or filled to its width.

* `FrameBuffer.color?`: the color at a place; `FrameBuffer.color?_pixels`, `FrameBuffer.color?_horizontalSync`: what
  pixels and a sync change there;
* `FrameBuffer.Call`: what is asked of a picture; `FrameBuffer.performAll_eq_pixels`: behind the last sync there are
  only pixels;
* `FrameBuffer.stored`: the cells in which a call stores something; `FrameBuffer.lt_of_mem_stored`: they exist;
  `FrameBuffer.getElem?_perform_of_not_mem`: all others stay as they are;
* **`FrameBuffer.rows_drawn`**: the rows of a picture are the lines that were drawn.
-/

namespace Atari

namespace FrameBuffer

variable {f g : FrameBuffer} (color : Byte) {x y : Nat}

/-! ## Places -/

theorem place_eq_iff {width x' y' : Nat} (inside : x < width) (inside' : x' < width) :
    y * width + x = y' * width + x' ↔ y = y' ∧ x = x' := by
  refine ⟨fun same => ?_, fun ⟨row, column⟩ => by rw [row, column]⟩
  obtain above | rfl | below := Nat.lt_trichotomy y y'
  · have next : (y + 1) * width ≤ y' * width := Nat.mul_le_mul_right width above
    rw [Nat.succ_mul] at next
    omega
  · exact ⟨rfl, Nat.add_left_cancel same⟩
  · have next : (y' + 1) * width ≤ y * width := Nat.mul_le_mul_right width below
    rw [Nat.succ_mul] at next
    omega

theorem place_lt {width height : Nat} (column : x < width) (row : y < height) :
    y * width + x < width * height := by
  have next : (y + 1) * width ≤ height * width := Nat.mul_le_mul_right width row
  rw [Nat.succ_mul, Nat.mul_comm height] at next
  omega

theorem mem_underBeam (column : x < f.width) (row : y < f.height) :
    y * f.width + x ∈ f.underBeam ↔ y = f.y ∧ x = f.x := by
  unfold underBeam
  split
  case isTrue inside => rw [List.mem_singleton, place_eq_iff column inside.1]
  case isFalse outside =>
    refine ⟨fun mem => absurd mem List.not_mem_nil, ?_⟩
    rintro ⟨rfl, rfl⟩
    exact absurd ⟨column, row⟩ outside

theorem mem_aheadOfBeam (column : x < f.width) (row : y < f.height) :
    y * f.width + x ∈ f.aheadOfBeam ↔ y = f.y ∧ f.x ≤ x := by
  unfold aheadOfBeam
  split
  case isTrue inside =>
    rw [List.mem_range'_1]
    constructor
    · intro ⟨after, before⟩
      -- The place is as far behind the start of the row of the beam as another place in that row.
      have same : y * f.width + x = f.y * f.width + (y * f.width + x - f.y * f.width) := by omega
      obtain ⟨rfl, -⟩ := (place_eq_iff column (by omega)).mp same
      omega
    · rintro ⟨rfl, after⟩
      omega
  case isFalse outside =>
    refine ⟨fun mem => absurd mem List.not_mem_nil, ?_⟩
    rintro ⟨rfl, after⟩
    exact absurd ⟨row, Nat.lt_of_le_of_lt after column⟩ outside

theorem lt_of_mem_underBeam {i : Nat} (mem : i ∈ f.underBeam) : i < f.width * f.height := by
  unfold underBeam at mem
  split at mem
  case isTrue inside =>
    rw [List.mem_singleton.mp mem]
    exact place_lt inside.1 inside.2
  case isFalse => cases mem

theorem lt_of_mem_aheadOfBeam {i : Nat} (mem : i ∈ f.aheadOfBeam) : i < f.width * f.height := by
  unfold aheadOfBeam at mem
  split at mem
  case isTrue inside =>
    obtain ⟨-, before⟩ := List.mem_range'_1.mp mem
    have last : f.y * f.width + (f.width - 1) < f.width * f.height := place_lt (by omega) inside.1
    omega
  case isFalse => cases mem

/-! ## Colors -/

def color? (f : FrameBuffer) (y x : Nat) : Option Byte := f.cells[y * f.width + x]?

theorem getElem?_paint {n : Nat} (cells : Vector Byte n) (places : List Nat) (i : Nat) :
    (places.foldl (·.setIfInBounds · color) cells)[i]? =
      if i ∈ places ∧ i < n then some color else cells[i]? := by
  induction places generalizing cells with
  | nil => simp
  | cons j places ih =>
    rw [List.foldl_cons, ih, Vector.getElem?_setIfInBounds]
    by_cases here : j = i
    · by_cases inside : i < n <;> simp [here, inside]
    · simp [here, Ne.symm here]

theorem color?_paint (places : List Nat) (column : x < f.width) (row : y < f.height) :
    (f.paint places color).color? y x = if y * f.width + x ∈ places then some color else f.color? y x :=
  (getElem?_paint color f.cells places _).trans (if_congr (and_iff_left (place_lt column row)) rfl rfl)

theorem color?_pixel (column : x < f.width) (row : y < f.height) :
    (f.pixel color).color? y x = if y = f.y ∧ x = f.x then some color else f.color? y x :=
  (color?_paint color f.underBeam column row).trans (if_congr (mem_underBeam column row) rfl rfl)

theorem color?_horizontalSync (column : x < f.width) (row : y < f.height) :
    f.horizontalSync.color? y x = if y = f.y ∧ f.x ≤ x then some 0 else f.color? y x :=
  (color?_paint 0 f.aheadOfBeam column row).trans (if_congr (mem_aheadOfBeam column row) rfl rfl)

variable (f) in
theorem pixels_kept (colors : List Byte) :
    (f.pixels colors).width = f.width ∧ (f.pixels colors).height = f.height ∧
      (f.pixels colors).x = f.x + colors.length ∧ (f.pixels colors).y = f.y := by
  induction colors generalizing f with
  | nil => exact ⟨rfl, rfl, rfl, rfl⟩
  | cons color colors ih =>
    obtain ⟨width, height, column, row⟩ := ih (f.pixel color)
    refine ⟨width, height, column.trans ?_, row⟩
    rw [List.length_cons]
    exact Nat.add_right_comm ..

theorem color?_pixels (colors : List Byte) (column : x < f.width) (row : y < f.height) :
    (f.pixels colors).color? y x =
      if y = f.y ∧ f.x ≤ x ∧ x < f.x + colors.length then colors[x - f.x]? else f.color? y x := by
  induction colors generalizing f with
  | nil =>
    rw [List.length_nil, Nat.add_zero, if_neg fun h => absurd h.2.2 (Nat.not_lt.mpr h.2.1)]
    rfl
  | cons color colors ih =>
    have rest : (f.pixels (color :: colors)).color? y x = ((f.pixel color).pixels colors).color? y x := rfl
    have right : (f.pixel color).x = f.x + 1 := rfl
    have same : (f.pixel color).y = f.y := rfl
    rw [rest, ih (f := f.pixel color) column row, right, same, color?_pixel color column row, List.length_cons]
    by_cases here : y = f.y ∧ x = f.x
    · rw [if_neg (by omega), if_pos here, if_pos (by omega), here.2, Nat.sub_self, List.getElem?_cons_zero]
    · rw [if_neg here]
      by_cases behind : y = f.y ∧ f.x + 1 ≤ x ∧ x < f.x + 1 + colors.length
      · have next : x - f.x = x - (f.x + 1) + 1 := by omega
        rw [if_pos behind, if_pos (by omega), next, List.getElem?_cons_succ]
      · rw [if_neg behind, if_neg (by omega)]

/-! ## Rows -/

theorem slice_eq : f.slice y = (f.toList.drop (y * f.width)).take f.width := by
  rw [slice, Vector.toList_extract, Nat.succ_mul, Nat.add_sub_cancel_left, toList]

theorem length_slice (row : y < f.height) : (f.slice y).length = f.width := by
  have inside : (y + 1) * f.width ≤ f.height * f.width := Nat.mul_le_mul_right f.width row
  rw [Nat.succ_mul, Nat.mul_comm f.height] at inside
  rw [slice_eq, List.length_take, List.length_drop, toList, Vector.length_toList]
  omega

theorem getElem?_slice (column : x < f.width) : (f.slice y)[x]? = f.color? y x := by
  rw [slice_eq, List.getElem?_take_of_lt column, List.getElem?_drop, toList, Vector.getElem?_toList, color?]

theorem row?_eq_some {colors : List Byte} (row : y < f.height) (length : colors.length = f.width)
    (same : ∀ x < f.width, f.color? y x = colors[x]?) : f.row? y = some colors := by
  rw [row?, if_pos row]
  refine congrArg some (List.ext_getElem? fun x => ?_)
  by_cases column : x < f.width
  · rw [getElem?_slice column, same x column]
  · rw [List.getElem?_eq_none (by rw [length_slice row]; omega), List.getElem?_eq_none (by omega)]

theorem row?_congr (width : f.width = g.width) (height : f.height = g.height)
    (same : ∀ x < g.width, y < g.height → f.color? y x = g.color? y x) : f.row? y = g.row? y := by
  by_cases row : y < g.height
  · have right : g.row? y = some (g.slice y) := if_pos row
    rw [right]
    refine row?_eq_some (height ▸ row) ((length_slice row).trans width.symm) fun x column => ?_
    rw [same x (width ▸ column) row, getElem?_slice (width ▸ column)]
  · rw [row?, row?, if_neg row, if_neg (height ▸ row)]

variable (f) in
theorem flatten_toRows : f.toRows.flatten = f.toList := by
  have upTo : ∀ n ≤ f.height, ((List.range n).map f.slice).flatten = f.toList.take (n * f.width) := by
    intro n
    induction n with
    | zero => simp
    | succ n ih =>
      intro inside
      rw [List.range_succ, List.map_append, List.flatten_append, ih (by omega), Nat.succ_mul, List.take_add,
        List.map_singleton, List.flatten_singleton, slice_eq]
  have whole := upTo f.height le_rfl
  rwa [List.take_of_length_le (by rw [toList, Vector.length_toList, Nat.mul_comm])] at whole

/-! ## Calls -/

/-- What is asked of a picture. -/
inductive Call
  | pixel (color : Byte)
  | byte (v foreground background : Byte)
  | horizontalSync
  | verticalSync
  deriving DecidableEq, Repr

namespace Call

/-- The pixels that a call draws. -/
def colors : Call → List Byte
  | pixel color => [color]
  | byte v foreground background => bitColors v foreground background
  | horizontalSync | verticalSync => []

/-- Whether a call draws; all others are syncs. -/
def draws : Call → Bool
  | pixel _ | byte .. => true
  | horizontalSync | verticalSync => false

/-- The calls up to the last sync. -/
def upToSync (calls : List Call) : List Call := calls.rdropWhile draws

def line (calls : List Call) : List Byte := (calls.rtakeWhile draws).flatMap colors

/-- The horizontal syncs behind the last vertical sync. -/
def position (calls : List Call) : Nat := (calls.rtakeWhile (· ≠ verticalSync)).count horizontalSync

end Call

/-- The picture behind a call. -/
def perform (f : FrameBuffer) : Call → FrameBuffer
  | .pixel color => f.pixel color
  | .byte v foreground background => f.byte v foreground background
  | .horizontalSync => f.horizontalSync
  | .verticalSync => f.verticalSync

/-- The picture behind some calls. -/
def performAll (f : FrameBuffer) (calls : List Call) : FrameBuffer := calls.foldl perform f

/-! ## Stored cells -/

variable (f)

/-- The cells in which pixels are stored. -/
def drawn (f : FrameBuffer) : List Byte → List Nat
  | [] => []
  | color :: colors => f.underBeam ++ (f.pixel color).drawn colors

/-- The cells in which a call stores something. -/
def stored (f : FrameBuffer) : Call → List Nat
  | .horizontalSync => f.aheadOfBeam
  | c => f.drawn c.colors

theorem lt_of_mem_drawn (colors : List Byte) {i : Nat} (mem : i ∈ f.drawn colors) : i < f.width * f.height := by
  induction colors generalizing f with
  | nil => cases mem
  | cons color colors ih =>
    obtain here | later := List.mem_append.mp mem
    · exact lt_of_mem_underBeam here
    · exact ih (f.pixel color) later

theorem lt_of_mem_stored (c : Call) {i : Nat} (mem : i ∈ f.stored c) : i < f.width * f.height := by
  cases c with
  | horizontalSync => exact lt_of_mem_aheadOfBeam mem
  | pixel | byte | verticalSync => exact f.lt_of_mem_drawn _ mem

theorem getElem?_paint_of_not_mem (places : List Nat) {i : Nat} (other : i ∉ places) :
    (f.paint places color).toList[i]? = f.toList[i]? := by
  rw [toList, toList, Vector.getElem?_toList, Vector.getElem?_toList]
  exact (getElem?_paint color f.cells places i).trans (if_neg fun h => other h.1)

theorem getElem?_pixels_of_not_mem (colors : List Byte) {i : Nat} (other : i ∉ f.drawn colors) :
    (f.pixels colors).toList[i]? = f.toList[i]? := by
  induction colors generalizing f with
  | nil => rfl
  | cons color colors ih =>
    rw [drawn, List.mem_append, not_or] at other
    exact (ih (f.pixel color) other.2).trans (f.getElem?_paint_of_not_mem color f.underBeam other.1)

theorem getElem?_perform_of_not_mem (c : Call) {i : Nat} (other : i ∉ f.stored c) :
    (f.perform c).toList[i]? = f.toList[i]? := by
  cases c with
  | pixel color => exact f.getElem?_pixels_of_not_mem [color] other
  | byte v foreground background => exact f.getElem?_pixels_of_not_mem (bitColors v foreground background) other
  | horizontalSync => exact f.getElem?_paint_of_not_mem 0 f.aheadOfBeam other
  | verticalSync => rfl

variable {f} in
theorem drawn_eq_nil (below : f.height ≤ f.y) (colors : List Byte) : f.drawn colors = [] := by
  induction colors generalizing f with
  | nil => rfl
  | cons color colors ih =>
    have outside : f.underBeam = [] := if_neg fun h => absurd h.2 (Nat.not_lt.mpr below)
    rw [drawn, outside, List.nil_append]
    exact ih (f := f.pixel color) below

variable {f} in
theorem stored_eq_nil (below : f.height ≤ f.y) (c : Call) : f.stored c = [] := by
  cases c with
  | horizontalSync => exact if_neg fun h => absurd h.1 (Nat.not_lt.mpr below)
  | pixel | byte | verticalSync => exact drawn_eq_nil below _

/-! ## Behind the last sync -/

theorem pixels_append (colors colors' : List Byte) :
    f.pixels (colors ++ colors') = (f.pixels colors).pixels colors' := List.foldl_append

theorem perform_draws {c : Call} (h : c.draws) : f.perform c = f.pixels c.colors := by
  cases c with
  | pixel | byte => rfl
  | horizontalSync | verticalSync => cases h

theorem performAll_eq_pixels (calls : List Call) :
    f.performAll calls = (f.performAll (Call.upToSync calls)).pixels (Call.line calls) := by
  induction calls using List.reverseRecOn with
  | nil => rfl
  | append_singleton calls c ih =>
    have last : f.performAll (calls ++ [c]) = (f.performAll calls).perform c := List.foldl_append
    unfold Call.upToSync Call.line
    by_cases h : c.draws
    · rw [List.rdropWhile_concat_pos _ _ _ h, List.rtakeWhile_concat_pos _ _ _ h, List.flatMap_append,
        pixels_append]
      rw [last, perform_draws _ h, ih]
      simp [Call.upToSync, Call.line]
    · rw [List.rdropWhile_concat_neg _ _ _ h, List.rtakeWhile_concat_neg _ _ _ h]
      rfl

theorem x_upToSync (start : f.x = 0) (calls : List Call) : (f.performAll (Call.upToSync calls)).x = 0 := by
  induction calls using List.reverseRecOn with
  | nil => exact start
  | append_singleton calls c ih =>
    unfold Call.upToSync
    by_cases h : c.draws
    · rw [List.rdropWhile_concat_pos _ _ _ h]
      exact ih
    · rw [List.rdropWhile_concat_neg _ _ _ h, performAll, List.foldl_append]
      cases c with
      | pixel | byte => exact absurd rfl h
      | horizontalSync | verticalSync => rfl

theorem y_performAll (start : f.y = 0) (calls : List Call) : (f.performAll calls).y = Call.position calls := by
  induction calls using List.reverseRecOn with
  | nil => exact start
  | append_singleton calls c ih =>
    have last : f.performAll (calls ++ [c]) = (f.performAll calls).perform c := List.foldl_append
    rw [last]
    unfold Call.position at ih ⊢
    by_cases ends : c = .verticalSync
    · rw [List.rtakeWhile_concat_neg _ _ _ (by simp [ends]), ends]
      rfl
    · rw [List.rtakeWhile_concat_pos _ _ _ (by simpa using ends), List.count_append, ← ih]
      cases c with
      | pixel color => rfl
      | byte v foreground background => exact ((f.performAll calls).pixels_kept _).2.2.2
      | horizontalSync => rfl
      | verticalSync => exact absurd rfl ends

/-! ## Lines -/

/-- A line over a row of some width. -/
def covering (width : Nat) (line row : List Byte) : List Byte := (line ++ row.drop line.length).take width

/-- A line cut or filled to some width. -/
def fitted (width : Nat) (line : List Byte) : List Byte :=
  line.take width ++ List.replicate (width - line.length) 0

variable {f}

section Line

variable (line : List Byte)

theorem row?_line (start : f.x = 0) : (f.pixels line).row? f.y = (f.row? f.y).map (covering f.width line) := by
  obtain ⟨width, height, -, -⟩ := f.pixels_kept line
  by_cases row : f.y < f.height
  · have before : f.row? f.y = some (f.slice f.y) := if_pos row
    rw [before, Option.map_some]
    refine row?_eq_some (height ▸ row) ?_ fun x column => ?_
    · rw [covering, List.length_take, List.length_append, List.length_drop, length_slice row, width]
      omega
    · rw [width] at column
      rw [color?_pixels line column row, start, Nat.zero_add, Nat.sub_zero, covering,
        List.getElem?_take_of_lt column, List.getElem?_append]
      by_cases drawn : x < line.length
      · rw [if_pos ⟨rfl, Nat.zero_le x, drawn⟩, if_pos drawn]
      · rw [if_neg fun h => drawn h.2.2, if_neg drawn, List.getElem?_drop, Nat.add_sub_cancel' (by omega),
          getElem?_slice column]
  · rw [row?, row?, if_neg row, if_neg (height ▸ row)]
    rfl

theorem row?_line_of_ne (other : y ≠ f.y) : (f.pixels line).row? y = f.row? y := by
  obtain ⟨width, height, -, -⟩ := f.pixels_kept line
  refine row?_congr width height fun x column row => ?_
  rw [color?_pixels line column row, if_neg fun h => other h.1]

theorem row?_horizontalSync_line (start : f.x = 0) (row : f.y < f.height) :
    (f.pixels line).horizontalSync.row? f.y = some (fitted f.width line) := by
  obtain ⟨width, height, right, same⟩ := f.pixels_kept line
  rw [start, Nat.zero_add] at right
  refine row?_eq_some (height ▸ row) ?_ fun x column => ?_
  · refine Eq.trans ?_ width.symm
    rw [fitted, List.length_append, List.length_take, List.length_replicate]
    omega
  · have inside : x < f.width := width ▸ column
    rw [color?_horizontalSync (f := f.pixels line) column (height ▸ row), same, right,
      color?_pixels line inside row, start, Nat.zero_add, Nat.sub_zero, fitted, List.getElem?_append,
      List.length_take]
    by_cases drawn : x < line.length
    · rw [if_neg (by omega), if_pos ⟨rfl, Nat.zero_le x, drawn⟩, if_pos (by omega),
        List.getElem?_take_of_lt inside]
    · rw [if_pos ⟨rfl, by omega⟩, if_neg (by omega), List.getElem?_replicate, if_pos (by omega)]

theorem row?_horizontalSync_of_ne (other : y ≠ f.y) : f.horizontalSync.row? y = f.row? y := by
  refine row?_congr rfl rfl fun x column row => ?_
  rw [color?_horizontalSync column row, if_neg fun h => other h.1]

end Line

theorem size_performAll (f : FrameBuffer) (calls : List Call) :
    (f.performAll calls).width = f.width ∧ (f.performAll calls).height = f.height := by
  induction calls generalizing f with
  | nil => exact ⟨rfl, rfl⟩
  | cons c calls ih =>
    obtain ⟨width, height⟩ := ih (f.perform c)
    have kept : (f.perform c).width = f.width ∧ (f.perform c).height = f.height := by
      cases c with
      | pixel | horizontalSync | verticalSync => exact ⟨rfl, rfl⟩
      | byte v foreground background =>
        obtain ⟨width, height, -⟩ := f.pixels_kept (bitColors v foreground background)
        exact ⟨width, height⟩
    exact ⟨width.trans kept.1, height.trans kept.2⟩

/-- **The rows of a picture are the lines that were drawn**, whatever its size is and whatever was asked of it. It
keeps its size, and a call stores only in cells of it. The pixels behind the last sync lie over one row, and no other
row has changed since; a horizontal sync then leaves them alone in their row, cut or filled with color zero. A
vertical sync changes no row, and below the bottom no call does. -/
theorem rows_drawn (width height : Nat) (calls : List Call) :
    let f := (blank width height).performAll calls
    let before := (blank width height).performAll (Call.upToSync calls)
    let line := Call.line calls
    (f.toList.length = width * height ∧ f.toRows.flatten = f.toList ∧ f.toRows.length = height) ∧
    (∀ c, (∀ i ∈ f.stored c, i < width * height) ∧
      ∀ i ∉ f.stored c, (f.perform c).toList[i]? = f.toList[i]?) ∧
    f.y = Call.position calls ∧
    f.row? f.y = (before.row? f.y).map (covering width line) ∧
    (f.y < height → f.horizontalSync.row? f.y = some (fitted width line)) ∧
    (∀ y, y ≠ f.y → f.row? y = before.row? y ∧ f.horizontalSync.row? y = before.row? y) ∧
    f.verticalSync.toList = f.toList ∧
    (height ≤ f.y → ∀ c, (f.perform c).toList = f.toList) := by
  intro f before line
  obtain ⟨wide, high⟩ := (blank width height).size_performAll calls
  obtain ⟨wide', high'⟩ := (blank width height).size_performAll (Call.upToSync calls)
  have start : before.x = 0 := x_upToSync _ rfl calls
  have drawn : f = before.pixels line := (blank width height).performAll_eq_pixels calls
  have same : f.y = before.y := by rw [drawn, (before.pixels_kept line).2.2.2]
  have size : f.width * f.height = width * height := by rw [wide, high]; rfl
  refine ⟨⟨?_, f.flatten_toRows, ?_⟩, fun c => ⟨fun i mem => size ▸ f.lt_of_mem_stored c mem, fun i =>
    f.getElem?_perform_of_not_mem c⟩, y_performAll _ rfl calls, ?_, fun row => ?_, fun y other => ?_, rfl,
    fun below c => List.ext_getElem? fun i => f.getElem?_perform_of_not_mem c ?_⟩
  · rw [toList, Vector.length_toList, size]
  · rw [toRows, List.length_map, List.length_range]
    exact high
  · rw [same, drawn, row?_line line start, wide']
    rfl
  · rw [same] at row ⊢
    rw [drawn, row?_horizontalSync_line line start (high' ▸ row), wide']
    rfl
  · rw [row?_horizontalSync_of_ne other, and_self, drawn]
    exact row?_line_of_ne line (same ▸ other)
  · rw [stored_eq_nil (high ▸ below)]
    exact List.not_mem_nil

/-- A long line is cut, and a short one that a vertical sync ends lies over the frame before. -/
example : ((blank 2 2).performAll [.byte 0xE0 0x0F 0x02, .horizontalSync, .pixel 0x44, .horizontalSync,
    .verticalSync, .pixel 0x36, .verticalSync]).toRows = [[0x36, 0x0F], [0x44, 0x00]] := by
  decide

end FrameBuffer

end Atari
