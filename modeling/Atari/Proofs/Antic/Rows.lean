import Atari.Proofs.Antic.Leftover

/-!
# The rows left of an instruction

A mode line is drawn from its first row on, or from the vertical scroll on, and ends with its last row or
before it. However the vertical scroll changes meanwhile, the rows that are left lie in the mode line, and a
scan line is drawn only if there is one left.

* `DisplayInstruction.height`, `DisplayInstruction.lineCount`: the scan lines of an instruction;
* `Antic.InRows`, **`Antic.kept_inRows`**: the lines that are left are lines of the instruction under way;
* `Antic.storesAt`: the locations that a scan line stores at; `Antic.dlistl_mem_storesAt_iff`: it moves the
  cursor when it decodes;
* **`Display.Reachable.rows_left`**: what is left wherever operations have led.
-/

namespace Atari

namespace DisplayInstruction

/-- The scan lines of an instruction without vertical scrolling. -/
def height : DisplayInstruction → Nat
  | blank lines _ => lines
  | jump _ verticalBlank _ => if verticalBlank then 0 else 1
  | modeLine mode _ _ _ _ => mode.height

/-- The scan lines of an instruction, with a vertical scroll, inside of a scrolled region or not. -/
def lineCount (i : DisplayInstruction) (vscrol : Nat) (inRegion : Bool) : Nat :=
  match i with
  | modeLine mode _ scrolls _ _ => DisplayWalk.rowCount mode.height vscrol inRegion scrolls
  | blank _ _ | jump _ _ _ => i.height

variable {m : Memory} {a : Address}

theorem le_of_decode_eq_blank {lines : Nat} {interrupt : Bool}
    (h : decode m a = blank lines interrupt) : 1 ≤ lines ∧ lines ≤ 16 := by
  unfold decode at h
  dsimp only at h
  split at h
  · cases h
    have nibble : (m.peek a >>> 4).toNat = (m.peek a).toNat / 16 := by
      simp [UInt8.toNat_shiftRight, Nat.shiftRight_eq_div_pow]
    have := (m.peek a).toNat_lt
    omega
  · cases h
  · cases h

theorem lineCount_pos_iff (vscrol : Nat) (inRegion : Bool) :
    0 < (decode m a).lineCount vscrol inRegion ↔ (decode m a).endsFrame = false := by
  cases hi : decode m a with
  | blank lines interrupt => exact iff_of_true (le_of_decode_eq_blank hi).1 rfl
  | jump target verticalBlank interrupt => cases verticalBlank <;> simp [lineCount, height, endsFrame]
  | modeLine mode scan scrolls horizontal interrupt =>
    have := height_pos_of_decode hi
    cases inRegion <;> cases scrolls <;> simp [lineCount, endsFrame, DisplayWalk.rowCount] <;> omega

end DisplayInstruction

namespace Antic

variable {store : Store} {antic : Antic} {b : Board}

/-! ## Behind the decoding -/

theorem rows_le {height : Nat} (pos : 0 < height) (vscrol : Nat) (inRegion scrolls : Bool) :
    (rows height vscrol inRegion scrolls).1 + DisplayWalk.rowCount height vscrol inRegion scrolls ≤
      height := by
  cases inRegion <;> cases scrolls <;> simp only [rows, DisplayWalk.rowCount] <;> omega

/-- **The lines of an instruction that is decoded**: those that the vertical scroll selects behind the move of
the cursor, and each of them draws a row of the instruction. -/
theorem step_lines (store : Store) (antic : Antic) (b : Board) :
    (antic.step store b).2.1.remaining = (antic.step store b).1.lineCount
      (Video.vscrol (antic.step store b).2.2.memory).toNat antic.scrollRegion ∧
    ((antic.step store b).1.endsFrame = false →
      (antic.step store b).2.1.row + (antic.step store b).2.1.remaining ≤ (antic.step store b).1.height) := by
  unfold step
  dsimp only
  cases hi : DisplayInstruction.decode b.memory (Video.displayList b.memory) with
  | blank lines interrupt => exact ⟨rfl, fun _ => Nat.le_of_eq (Nat.zero_add _)⟩
  | jump target verticalBlank interrupt =>
    cases verticalBlank with
    | false => exact ⟨rfl, fun _ => Nat.le_refl 1⟩
    | true => exact ⟨remaining_verticalSync .., fun stays => nomatch stays⟩
  | modeLine mode scan scrolls horizontal interrupt =>
    have pos := DisplayInstruction.height_pos_of_decode hi
    dsimp only
    generalize (Board.apply store _ _) = c
    have count := DisplayWalk.rows_eq_rowCount pos (Video.vscrol c.memory).toNat antic.scrollRegion scrolls
    have fits := rows_le pos (Video.vscrol c.memory).toNat antic.scrollRegion scrolls
    rw [← count] at fits
    cases scan <;> exact ⟨count, fun _ => fits⟩

/-! ## Between two scan lines -/

/-- The lines that are left are lines of the instruction under way. -/
structure InRows (antic : Antic) : Prop where
  decoded : ∀ {i}, antic.current = some i → ∃ m a, DisplayInstruction.decode m a = i
  rows : antic.remaining ≠ 0 → ∃ i, antic.current = some i ∧ antic.row + antic.remaining ≤ i.height

/-- **The lines that are left stay lines of the instruction under way**: each scan line goes on by one row and
leaves one line less. -/
theorem kept_inRows : Kept InRows where
  new := ⟨fun e => (nomatch e), fun more => absurd rfl more⟩
  step {antic} store b _ := by
    refine ⟨fun e => ⟨b.memory, Video.displayList b.memory, ?_⟩, fun more => ⟨_, current_step .., ?_⟩⟩
    · rw [current_step, step_fst] at e
      exact Option.some.inj e
    · refine (step_lines store antic b).2 (Bool.eq_false_iff.mpr fun ends => more ?_)
      exact remaining_step _ _ _ ends
  endLine {antic} store b h := by
    refine ⟨fun e => h.decoded (current_endLine store antic b ▸ e), fun more => ?_⟩
    rw [remaining_endLine] at more
    obtain ⟨i, current, rows⟩ := h.rows (by omega)
    refine ⟨i, (current_endLine ..).trans current, ?_⟩
    rw [row_endLine, remaining_endLine]
    omega
  same {antic next} current remaining row h :=
    ⟨fun e => h.decoded (current ▸ e), fun more => by
      rw [current, remaining, row]
      exact h.rows (remaining ▸ more)⟩

/-- What can be left of an instruction: up to sixteen blank lines, the line of a jump that does not end the
frame, or rows of a mode line from the one that is drawn next on. -/
def LeftOf (antic : Antic) : DisplayInstruction → Prop
  | .blank _ _ => antic.remaining ≤ 16
  | .jump _ verticalBlank _ => verticalBlank = false ∧ antic.remaining = 1
  | .modeLine mode _ _ _ _ => antic.row + antic.remaining ≤ mode.height

theorem InRows.leftOf (h : antic.InRows) (more : 0 < antic.remaining) :
    ∃ i, antic.current = some i ∧ antic.LeftOf i := by
  obtain ⟨i, current, rows⟩ := h.rows (by omega)
  obtain ⟨m, a, decoded⟩ := h.decoded current
  refine ⟨i, current, ?_⟩
  unfold LeftOf
  cases i with
  | blank lines interrupt =>
    have := DisplayInstruction.le_of_decode_eq_blank decoded
    simp only [DisplayInstruction.height] at rows ⊢
    omega
  | jump target verticalBlank interrupt =>
    cases verticalBlank <;> simp [DisplayInstruction.height] at rows ⊢ <;> omega
  | modeLine mode scan scrolls horizontal interrupt => exact rows

theorem Kept.moments {P : Antic → Prop} (kept : Kept P) {n : Nat} {x : Antic × Board} (h : P antic)
    (mem : x ∈ moments store n antic b) : P x.1 := by
  induction n generalizing antic b with
  | zero => cases mem
  | succ n ih =>
    rw [Antic.moments] at mem
    dsimp only at mem
    split at mem
    · obtain rfl := List.mem_singleton.mp mem
      exact h
    · obtain rfl | later := List.mem_cons.mp mem
      · exact h
      · exact ih (kept.scanLine h) later

theorem InRows.drawing (h : antic.InRows) : (antic.drawing store b).1.InRows := by
  unfold Antic.drawing
  split
  · exact kept_inRows.step store b h
  · exact h

/-- **A scan line that is drawn is left to be drawn.** -/
theorem drawing_remaining (dma : Video.displayListDma b.memory = true) (draws : ¬antic.Syncs b.memory) :
    0 < (antic.drawing store b).1.remaining := by
  unfold Syncs at draws
  rw [if_pos dma, ← step_fst store antic b] at draws
  unfold drawing
  by_cases none : antic.remaining = 0
  · rw [if_pos none, (step_lines store antic b).1, step_fst, DisplayInstruction.lineCount_pos_iff,
      ← step_fst store antic b]
    exact Bool.eq_false_iff.mpr fun ends => draws ⟨none, ends⟩
  · rw [if_neg none]
    exact Nat.pos_of_ne_zero none

end Antic

/-! ## The cursor -/

/-- Stores a byte, and writes into the journal where. -/
def Board.traced : Store := fun b a v => (b.setByte a v).record (.hook "store" a v)

namespace Program

variable {α : Type} {allowed : Address → Prop} {P : α → Prop}

theorem subset_run_traced (x : Program α) (b : Board) : b.journal ⊆ (x.run Board.traced b).2.journal := by
  induction x generalizing b with
  | done x => exact List.Subset.refl _
  | look rest ih => exact ih b.memory b
  | note level body rest ih => simpa [run] using ih (b.note level body)
  | store a v rest ih => exact List.Subset.trans (List.subset_cons_self ..) (ih (Board.traced b a v))

theorem Does.run_traced {x : Program α} (h : x.Does allowed P) (b : Board) {e : Event}
    (mem : e ∈ (x.run Board.traced b).2.journal) :
    e ∈ b.journal ∨ ∃ a v, allowed a ∧ e = .hook "store" a v := by
  induction x generalizing b with
  | done x => exact .inl mem
  | look rest ih => exact ih b.memory (h b.memory) b mem
  | note level body rest ih => simpa using ih h (b.note level body) mem
  | store a v rest ih =>
    obtain before | later := ih h.2 (Board.traced b a v) mem
    · obtain rfl | before := List.mem_cons.mp before
      · exact .inr ⟨a, v, h.1, rfl⟩
      · exact .inl before
    · exact .inr later

theorem does_listLine_counters (antic : Antic) :
    (listLine antic).Does (· ∈ [Control.vcount, Control.nmist]) fun _ => True := by
  have count : (count antic).Does (· ∈ [Control.vcount, Control.nmist]) fun _ => True :=
    .apply (by simp [VideoSetting.stores]) trivial
  refine .look fun m => .bind (P := fun _ => True) (count.bind fun counted _ => ?_) fun _ _ => trivial
  dsimp only
  split
  · trivial
  · refine .look fun m => ?_
    split
    · exact .tell _ _ (.look fun m => .apply (by simp [VideoSetting.stores]) trivial)
    · trivial

end Program

namespace Antic

/-- The locations that a scan line stores at, when no hook is called. -/
def storesAt (antic : Antic) (b : Board) : List Address :=
  (antic.scanLine Board.traced { b with journal := [] }).2.2.journal.filterMap fun
    | .hook _ a _ => some a
    | .observed .. | .breakpoint .. | .did .. => none

variable {antic : Antic} {b : Board}

theorem mem_storesAt_iff {a : Address} : a ∈ antic.storesAt b ↔ ∃ label v,
    Event.hook label a v ∈ (antic.scanLine Board.traced { b with journal := [] }).2.2.journal := by
  unfold storesAt
  rw [List.mem_filterMap]
  constructor
  · rintro ⟨e, mem, ha⟩
    cases e with
    | hook label c v =>
      cases ha
      exact ⟨label, v, mem⟩
    | observed | breakpoint | did => cases ha
  · rintro ⟨label, v, mem⟩
    exact ⟨_, mem, rfl⟩

theorem step_traced (antic : Antic) (b : Board) :
    ∃ v, Event.hook "store" Control.dlistl v ∈ (antic.step Board.traced b).2.2.journal := by
  have stored (c : Board) (a : Address) :
      Event.hook "store" Control.dlistl a.low ∈ (c.apply Board.traced (.displayList a)).journal :=
    .tail _ (.head _)
  unfold step
  dsimp only
  split
  · exact ⟨_, stored ..⟩
  · rename_i target verticalBlank interrupt _
    refine ⟨target.low, ?_⟩
    split
    · rw [← Program.run_verticalSync]
      exact Program.subset_run_traced _ _ (stored ..)
    · exact stored ..
  · exact ⟨_, stored ..⟩

/-- **A scan line of a display list moves the cursor exactly if no line is left before it.** -/
theorem dlistl_mem_storesAt_iff (dma : Video.displayListDma b.memory = true) :
    Control.dlistl ∈ antic.storesAt b ↔ antic.remaining = 0 := by
  rw [mem_storesAt_iff]
  have dma : Video.displayListDma { b with journal := [] : Board }.memory = true := dma
  unfold scanLine
  rw [if_pos dma]
  by_cases none : antic.remaining = 0
  · refine iff_of_true ?_ none
    obtain ⟨v, stored⟩ := step_traced antic { b with journal := [] }
    rw [if_pos none]
    dsimp only
    split
    · exact ⟨_, v, stored⟩
    · have drawn := Program.subset_run_traced (Program.listLine
        (antic.step Board.traced { b with journal := [] }).2.1) _ stored
      rw [Program.run_listLine] at drawn
      exact ⟨_, v, drawn⟩
  · refine iff_of_false ?_ none
    rw [if_neg none]
    rintro ⟨label, v, stored⟩
    have drawn := Program.run_listLine Board.traced { b with journal := [] } antic
    rw [← congrArg Prod.snd drawn] at stored
    obtain before | ⟨a, v', counter, same⟩ := (Program.does_listLine_counters antic).run_traced _ stored
    · cases before
    · cases same
      revert counter
      decide

end Antic

namespace Display

open Antic

/-- **What is left of the instruction under way, wherever operations have led.** The lines that are left are
lines of an instruction that does not end the frame. This holds before each scan line up to the end of a frame,
too, or before a single one if `n` is one. With a display list it decodes an instruction and moves the cursor
exactly if no line is left, and what it draws is left to be drawn before it and counted off. Without a display
list nothing is. -/
theorem Reachable.rows_left {d : Display} (h : d.Reachable) :
    (0 < d.antic.remaining → ∃ i, d.antic.current = some i ∧ d.antic.LeftOf i) ∧
    ∀ (store : Store) (n : Nat) (b : Board), ∀ x ∈ moments store n d.antic b,
      let drawing := (x.1.drawing store x.2).1
      let after := (x.1.scanLine store x.2).2.1
      (0 < x.1.remaining → ∃ i, x.1.current = some i ∧ x.1.LeftOf i) ∧
      (Video.displayListDma x.2.memory = true →
        (x.1.remaining = 0 ↔ Control.dlistl ∈ x.1.storesAt x.2) ∧
        (x.1.remaining = 0 →
          after.current = some (.decode x.2.memory (Video.displayList x.2.memory))) ∧
        (x.1.remaining ≠ 0 → drawing = x.1 ∧ after.current = x.1.current) ∧
        (¬x.1.Syncs x.2.memory →
          0 < drawing.remaining ∧ after.remaining + 1 = drawing.remaining ∧
          ∀ mode scan vertical horizontal interrupt,
            drawing.current = some (.modeLine mode scan vertical horizontal interrupt) →
              drawing.row < mode.height)) ∧
      (Video.displayListDma x.2.memory = false → after.current = x.1.current ∧
        after.remaining = x.1.remaining ∧ after.row = x.1.row) := by
  refine ⟨(h.kept kept_inRows).leftOf, fun store n b x hx => ?_⟩
  have inRows : x.1.InRows := kept_inRows.moments (h.kept kept_inRows) hx
  obtain ⟨antic, b⟩ := x
  dsimp only at inRows ⊢
  refine ⟨inRows.leftOf, fun dma => ⟨(dlistl_mem_storesAt_iff dma).symm, fun none => ?_, fun more => ?_,
    fun draws => ⟨drawing_remaining dma draws, ?_, ?_⟩⟩, fun dark => ?_⟩
  · have decodes : (Beat.line store antic b).decodes = true := by simp [Beat.decodes, dma, none]
    exact Beat.current_of_decodes decodes
  · have goesOn : (Beat.line store antic b).decodes = false := by simp [Beat.decodes, more]
    refine ⟨?_, (Beat.after_of_not_decodes goesOn).1⟩
    show (antic.drawing store b).1 = antic
    rw [drawing, if_neg more]
  · have left : 0 < (antic.drawing store b).1.remaining := drawing_remaining dma draws
    show (antic.scanLine store b).2.1.remaining + 1 = (antic.drawing store b).1.remaining
    rw [scanLine_of_dma store dma draws]
    show ((antic.drawing store b).1.endLine store (antic.drawing store b).2).1.remaining + 1 = _
    rw [remaining_endLine]
    omega
  · intro mode scan vertical horizontal interrupt current
    have left : 0 < (antic.drawing store b).1.remaining := drawing_remaining dma draws
    obtain ⟨i, same, rows⟩ := inRows.drawing.leftOf left
    obtain rfl := Option.some.inj (same.symm.trans current)
    have rows : (antic.drawing store b).1.row + (antic.drawing store b).1.remaining ≤ mode.height := rows
    show (antic.drawing store b).1.row < mode.height
    omega
  · show (antic.scanLine store b).2.1.current = antic.current ∧
      (antic.scanLine store b).2.1.remaining = antic.remaining ∧
      (antic.scanLine store b).2.1.row = antic.row
    rw [Antic.scanLine, if_neg (Bool.eq_false_iff.mp dark)]
    exact freeLine_underWay store antic b

/-- A board whose display list begins with characters that scroll vertically by three rows. -/
def scrolled : Board where
  memory := (listed 0x22).memory.set Control.vscrol 0x03

/-- Behind the first of its scan lines, four of the eight rows are left. -/
theorem rows_left_scrolled :
    let d := ((on (.recorder {})).scanLine Board.setByte scrolled).2.1
    d.Reachable ∧ 0 < d.antic.remaining ∧ (∃ i, d.antic.current = some i ∧ d.antic.LeftOf i) ∧
      (d.antic.row, d.antic.remaining) = (4, 4) ∧
      Video.displayListDma scrolled.memory = true ∧ ¬d.antic.Syncs scrolled.memory ∧
      (d.antic.scanLine Board.setByte scrolled).2.1.remaining + 1 =
        (d.antic.drawing Board.setByte scrolled).1.remaining := by
  intro d
  have reachable : d.Reachable := .scanLine _ _ (.on _)
  have left : (d.antic.row, d.antic.remaining) = (4, 4) := by decide +kernel
  have more : 0 < d.antic.remaining := by decide +kernel
  have dma : Video.displayListDma scrolled.memory = true := by decide +kernel
  have draws : ¬d.antic.Syncs scrolled.memory := by
    unfold Antic.Syncs
    decide +kernel
  obtain ⟨underWay, next⟩ := reachable.rows_left
  obtain ⟨-, -, -, counts⟩ := (next Board.setByte 1 scrolled _ (.head _)).2.1 dma
  have countedOff := (counts draws).2.1
  dsimp only at countedOff
  exact ⟨reachable, more, underWay more, left, dma, draws, countedOff⟩

end Display

end Atari
