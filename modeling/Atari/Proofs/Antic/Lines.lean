import Atari.Proofs.Antic.Pixels
import Atari.Proofs.Antic.UnderWay
import Atari.Board.Store

/-!
# What a scan line draws

A scan line is a vertical sync, or pixels and a horizontal sync. The pixels are none, or they are 384.

* `Antic.Syncs`: whether the next scan line is a vertical sync;
* `Antic.drawing`: the instruction that the next scan line draws; `Antic.lineLength`: its pixels;
* **`Display.scanLine_draws`**: what a scan line draws, wherever operations have led.
-/

namespace Atari

namespace Antic

/-- Whether the next scan line is a vertical sync: no line is left and the next instruction ends the frame,
or without a display list the frame has its lines. -/
def Syncs (antic : Antic) (m : Memory) : Prop :=
  if Video.displayListDma m then
    antic.remaining = 0 ∧ (DisplayInstruction.decode m (Video.displayList m)).endsFrame
  else linesPerFrame ≤ antic.line + 1

/-- The coprocessor when it draws the next scan line of a display list: with no line left, it has decoded
an instruction. -/
def drawing (store : Store) (antic : Antic) (b : Board) : Antic × Board :=
  if antic.remaining = 0 then (antic.step store b).2 else (antic, b)

/-- The pixels in a scan line of the instruction under way. -/
def lineLength (antic : Antic) (m : Memory) : Nat :=
  match antic.current with
  | some (.modeLine _ _ _ _ _) | some (.jump _ false _) =>
    if Video.width m = .disabled then 0 else 384
  | _ => 0

variable (store : Store) {antic : Antic} {b : Board}

theorem scanLine_of_syncs (h : antic.Syncs b.memory) : (antic.scanLine store b).1 = .verticalSync := by
  unfold Syncs at h
  unfold scanLine
  split
  · rename_i dma
    rw [if_pos dma, ← step_fst store antic b] at h
    rw [if_pos h.1]
    dsimp only
    rw [if_pos h.2]
  · rename_i dma
    rw [if_neg dma] at h
    rw [freeLine, if_pos h]

theorem scanLine_of_dma (dma : Video.displayListDma b.memory = true) (h : ¬antic.Syncs b.memory) :
    antic.scanLine store b =
      (antic.drawing store b).1.listLine store (antic.drawing store b).2 := by
  unfold Syncs at h
  rw [if_pos dma, ← step_fst store antic b] at h
  unfold scanLine drawing
  rw [if_pos dma]
  by_cases none : antic.remaining = 0
  · rw [if_pos none, if_pos none]
    exact if_neg fun ends => h ⟨none, ends⟩
  · rw [if_neg none, if_neg none]

theorem scanLine_of_not_dma (dma : ¬Video.displayListDma b.memory = true)
    (h : ¬antic.Syncs b.memory) : (antic.scanLine store b).1 = .picture [] := by
  unfold Syncs at h
  rw [if_neg dma] at h
  rw [scanLine, if_neg dma, freeLine, if_neg h]

variable {store} in
theorem Sound.drawing (h : antic.Sound) : (antic.drawing store b).1.Sound := by
  unfold Antic.drawing
  split
  · exact sound_step
  · exact h

theorem Sound.drawing_current (h : antic.Sound) (dma : Video.displayListDma b.memory = true)
    (draws : ¬antic.Syncs b.memory) :
    ∃ i, (antic.drawing store b).1.current = some i ∧ i.endsFrame = false := by
  unfold Syncs at draws
  rw [if_pos dma, ← step_fst store antic b] at draws
  unfold Antic.drawing
  by_cases none : antic.remaining = 0
  · rw [if_pos none]
    exact ⟨_, current_step .., Bool.eq_false_iff.mpr fun ends => draws ⟨none, ends⟩⟩
  · rw [if_neg none]
    exact h.left none

theorem Sound.length_pixels (h : antic.Sound) {i : DisplayInstruction}
    (current : antic.current = some i) (draws : i.endsFrame = false) (m : Memory) :
    (antic.pixels m).length = antic.lineLength m := by
  unfold pixels lineLength
  rw [current]
  cases i with
  | blank lines interrupt => rfl
  | jump target verticalBlank interrupt =>
    obtain rfl : verticalBlank = false := draws
    exact Playfield.length_emptyLine m
  | modeLine mode scan vertical horizontal interrupt =>
    exact Playfield.length_line m (h.mode current) ..

end Antic

namespace Board

/-- Stores a byte, and turns to `refused` if the bus refuses it. -/
def storeOr (refused : MemoryError → Board → Board) (depth : Nat) : Store := fun b a v =>
  match b.pokeWith (storeWithin depth) a [v] with
  | .ok b => b
  | .error e => refused e b

theorem storeOr_eq (refused : MemoryError → Board → Board) (depth : Nat) :
    storeOr refused depth = storeWithin depth := by
  funext b a v
  have inside : a.toNat + [v].length ≤ Memory.size := a.toNat_lt
  unfold storeOr pokeWith
  rw [if_pos inside]
  rfl

end Board

namespace Display

open Playfield

theorem Reachable.scanLine_picture {d : Display} (h : d.Reachable) (store : Store) (b : Board)
    (draws : ¬d.antic.Syncs b.memory) : ∃ pixels, (d.scanLine store b).1 = .picture pixels ∧
      (d.scanLine store b).2.1.screen = (d.screen.draw pixels).horizontalSync ∧
      pixels.length = if Video.displayListDma b.memory then
        (d.antic.drawing store b).1.lineLength (d.antic.drawing store b).2.memory else 0 := by
  by_cases dma : Video.displayListDma b.memory = true
  · obtain ⟨i, current, stays⟩ := h.sound.drawing_current store dma draws
    have line : (d.antic.scanLine store b).1 =
        .picture ((d.antic.drawing store b).1.pixels (d.antic.drawing store b).2.memory) := by
      rw [Antic.scanLine_of_dma store dma draws]
      rfl
    refine ⟨_, line, congrArg d.screen.present line, ?_⟩
    rw [if_pos dma, h.sound.drawing.length_pixels current stays]
  · have line := Antic.scanLine_of_not_dma store dma draws
    refine ⟨_, line, congrArg d.screen.present line, ?_⟩
    rw [if_neg dma]
    rfl

theorem scanLine_peek (d : Display) {b : Board} (free : ∀ a ∈ Antic.registers, b.hooks.on a = [])
    (depth : Nat) {a : Address} (other : a ∉ Antic.registers) :
    (d.scanLine (Board.storeWithin depth) b).2.2.peek a = b.peek a := by
  show (d.antic.scanLine (Board.storeWithin depth) b).2.2.peek a = _
  rw [Antic.scanLine_plain (Antic.plain_storeWithin free depth) rfl d.antic]
  exact (Antic.leaves_scanLine d.antic b).peek a other

/-- **What a scan line draws.** -/
theorem scanLine_draws {d : Display} (h : d.Reachable) (depth : Nat) (b : Board) :
    let store := Board.storeWithin depth
    let drawing := d.antic.drawing store b
    (d.antic.Syncs b.memory → (d.scanLine store b).1 = .verticalSync ∧
      (d.scanLine store b).2.1.screen = d.screen.verticalSync) ∧
    (¬d.antic.Syncs b.memory → ∃ pixels, (d.scanLine store b).1 = .picture pixels ∧
      (d.scanLine store b).2.1.screen = (d.screen.draw pixels).horizontalSync ∧
      pixels.length =
        if Video.displayListDma b.memory then drawing.1.lineLength drawing.2.memory else 0) ∧
    (∀ refused, d.scanLine (Board.storeOr refused depth) b = d.scanLine store b) ∧
    (∀ mode scan vertical scrolls interrupt,
      drawing.1.current = some (.modeLine mode scan vertical scrolls interrupt) →
        shown drawing.2.memory mode ≤ fetched drawing.2.memory mode scrolls ∧
        shown drawing.2.memory mode * mode.pixelsPerByte ≤ 384 ∧
        border drawing.2.memory mode + shown drawing.2.memory mode * mode.pixelsPerByte +
          border drawing.2.memory mode = 384) ∧
    ((∀ a ∈ Antic.registers, b.hooks.on a = []) →
      ∀ a ∉ Antic.registers, (d.scanLine store b).2.2.peek a = b.peek a) := by
  intro store drawing
  refine ⟨fun syncs => ?_, h.scanLine_picture store b, fun refused => ?_,
    fun mode scan vertical scrolls interrupt current => ?_,
    fun free a other => d.scanLine_peek free depth other⟩
  · have line := Antic.scanLine_of_syncs store syncs
    exact ⟨line, congrArg d.screen.present line⟩
  · rw [Board.storeOr_eq]
  · have table := h.sound.drawing.mode current
    exact ⟨shown_le_fetched _ table scrolls, border_add _ table⟩

/-- A board whose display list begins with the given byte, at address zero. -/
def listed (opcode : Byte) : Board where
  memory := (Memory.zero.set Control.dmactl 0x22).set 0x0000 opcode

/-- A display that has drawn nothing draws a line of characters, or ends the frame. -/
theorem scanLine_draws_listed :
    (∃ pixels, ((on (.recorder {})).scanLine Board.store (listed 0x02)).1 = .picture pixels ∧
      pixels.length = 384) ∧
    ((on (.recorder {})).scanLine Board.store (listed 0x41)).1 = .verticalSync ∧
    (let m := (Antic.drawing Board.store {} (listed 0x02)).2.memory
     border m .text40 + shown m .text40 * 8 + border m .text40 = 384) ∧
    ((on (.recorder {})).scanLine Board.store (listed 0x02)).2.2.peek Control.wsync = 0 := by
  have clear : ∀ a ∈ Antic.registers, (listed 0x02).hooks.on a = [] := fun _ _ => rfl
  obtain ⟨-, draws, -, widths, leaves⟩ :=
    scanLine_draws (.on (.recorder {})) Board.nesting (listed 0x02)
  obtain ⟨syncs, -⟩ := scanLine_draws (.on (.recorder {})) Board.nesting (listed 0x41)
  refine ⟨?_, (syncs ?_).1, ?_, ?_⟩
  · obtain ⟨pixels, line, -, length⟩ := draws (by unfold Antic.Syncs; decide +kernel)
    exact ⟨pixels, line, length.trans (by decide +kernel)⟩
  · unfold Antic.Syncs
    decide +kernel
  · exact (widths .text40 none false false false (by decide +kernel)).2.2
  · exact (leaves clear Control.wsync (by decide)).trans (by decide +kernel)

end Display

end Atari
