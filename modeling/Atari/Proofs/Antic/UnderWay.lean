import Atari.Proofs.Antic.Walk

/-!
# The instruction under way

Between two scan lines the coprocessor knows which instruction it draws and how many lines are left of it,
however bytes are stored and whatever is in memory.

* `Antic.Kept`: what all parts of a scan line keep; `Display.Reachable`: what operations lead to;
* **`Display.Reachable.kept`**: it holds wherever they lead;
* `Antic.Sound`: what is known of the instruction under way between two scan lines.
-/

namespace Atari

namespace Antic

variable (store : Store) (antic : Antic) (b : Board)

/-! ## Parts of a scan line -/

theorem verticalSync_eq : ∃ request, (antic.verticalSync store b).1 =
    { antic with line := 0, frames := antic.frames + 1, scrollRegion := false, request := request } := by
  unfold verticalSync
  dsimp only
  split
  · exact ⟨_, rfl⟩
  · exact ⟨_, rfl⟩

theorem current_verticalSync : (antic.verticalSync store b).1.current = antic.current := by
  obtain ⟨request, h⟩ := verticalSync_eq store antic b
  rw [h]

theorem remaining_verticalSync : (antic.verticalSync store b).1.remaining = antic.remaining := by
  obtain ⟨request, h⟩ := verticalSync_eq store antic b
  rw [h]

theorem step_fst : (antic.step store b).1 =
    .decode b.memory (Video.displayList b.memory) := by
  unfold step
  dsimp only
  split
  · rfl
  · split <;> rfl
  · rfl

theorem current_step : (antic.step store b).2.1.current = some (antic.step store b).1 := by
  unfold step
  dsimp only
  split
  · rfl
  · split
    · exact current_verticalSync ..
    · rfl
  · rfl

theorem remaining_step (h : (antic.step store b).1.endsFrame = true) :
    (antic.step store b).2.1.remaining = 0 := by
  rw [step_fst] at h
  unfold step
  dsimp only
  split
  · rename_i decoded
    rw [decoded] at h
    cases h
  · rename_i target verticalBlank interrupt decoded
    rw [decoded] at h
    obtain rfl : verticalBlank = true := h
    rw [if_pos rfl]
    exact remaining_verticalSync ..
  · rename_i decoded
    rw [decoded] at h
    cases h

theorem current_endLine : (antic.endLine store b).1.current = antic.current := by
  unfold endLine count advance
  dsimp only
  split
  · rfl
  · split <;> split <;> rfl

theorem remaining_endLine : (antic.endLine store b).1.remaining = antic.remaining - 1 := by
  unfold endLine count advance
  dsimp only
  split
  · rfl
  · split <;> split <;> rfl

theorem row_endLine : (antic.endLine store b).1.row = antic.row + 1 := by
  unfold endLine count advance
  dsimp only
  split
  · rfl
  · split <;> split <;> rfl

theorem freeLine_underWay : (antic.freeLine store b).2.1.current = antic.current ∧
    (antic.freeLine store b).2.1.remaining = antic.remaining ∧
    (antic.freeLine store b).2.1.row = antic.row := by
  obtain ⟨request, ended⟩ := verticalSync_eq store antic b
  unfold freeLine
  split
  · dsimp only
    rw [ended]
    exact ⟨rfl, rfl, rfl⟩
  · exact ⟨rfl, rfl, rfl⟩

/-! ## Between two scan lines -/

/-- What holds of a new coprocessor, and is kept by all that happens to the instruction under way. -/
structure Kept (P : Antic → Prop) : Prop where
  new : P {}
  step : ∀ {antic} store b, P antic → P (antic.step store b).2.1
  endLine : ∀ {antic} store b, P antic → P (antic.endLine store b).1
  same : ∀ {antic next : Antic}, next.current = antic.current → next.remaining = antic.remaining →
    next.row = antic.row → P antic → P next

namespace Kept

variable {P : Antic → Prop} (kept : Kept P) {store} {antic} {b}

include kept

/-- **A scan line keeps what all its parts keep.** -/
theorem scanLine (h : P antic) : P (antic.scanLine store b).2.1 := by
  unfold Antic.scanLine
  dsimp only
  split
  · split
    · split
      · exact kept.step store b h
      · exact kept.endLine store _ (kept.step store b h)
    · exact kept.endLine store b h
  · obtain ⟨current, remaining, row⟩ := freeLine_underWay store antic b
    exact kept.same current remaining row h

theorem linesUpTo (h : P antic) (n : Nat) : P (antic.linesUpTo store n b).2.1 := by
  induction n generalizing antic b with
  | zero => exact h
  | succ n ih =>
    unfold Antic.linesUpTo
    dsimp only
    split
    · exact kept.scanLine h
    · exact ih (kept.scanLine h)

end Kept

/-- What holds between two scan lines: the modes are those of the table, and lines are left of an
instruction that does not end the frame. -/
structure Sound (antic : Antic) : Prop where
  mode : ∀ {mode scan vertical horizontal interrupt},
    antic.current = some (.modeLine mode scan vertical horizontal interrupt) → mode ∈ Mode.table
  left : antic.remaining ≠ 0 → ∃ i, antic.current = some i ∧ i.endsFrame = false

variable {store} {antic} {b}

theorem Sound.less {next : Antic} (h : antic.Sound) (current : next.current = antic.current)
    (remaining : next.remaining ≤ antic.remaining) : next.Sound where
  mode e := h.mode (current ▸ e)
  left more := current ▸ h.left (by omega)

theorem sound_step : (antic.step store b).2.1.Sound where
  mode e := by
    rw [current_step, step_fst] at e
    exact DisplayInstruction.mem_table_of_decode (Option.some.inj e)
  left more := ⟨_, current_step .., Bool.eq_false_iff.mpr fun ends => more (remaining_step _ _ _ ends)⟩

theorem kept_sound : Kept Sound where
  new := ⟨fun e => (nomatch e), fun more => absurd rfl more⟩
  step _ _ _ := sound_step
  endLine _ _ h := h.less (current_endLine ..) (by rw [remaining_endLine]; omega)
  same current remaining _ h := h.less current (Nat.le_of_eq remaining)

end Antic

/-! ## Operations -/

namespace Display

/-- The displays that operations lead to. Between them the memory, the hooks and the way to store can
change, and the screen too. -/
inductive Reachable : Display → Prop
  | on (screen : Screen) : Reachable (.on screen)
  | step {d : Display} (store : Store) (b : Board) : d.Reachable → (d.step store b).2.1.Reachable
  | scanLine {d : Display} (store : Store) (b : Board) :
    d.Reachable → (d.scanLine store b).2.1.Reachable
  | frame {d : Display} (store : Store) (b : Board) : d.Reachable → (d.frame store b).2.1.Reachable
  | takeRequest {d : Display} : d.Reachable → d.takeRequest.2.Reachable
  | withScreen {d : Display} (screen : Screen) : d.Reachable → Reachable { d with screen := screen }

/-- **Wherever operations lead, what all their parts keep holds.** -/
theorem Reachable.kept {P : Antic → Prop} (kept : Antic.Kept P) {d : Display} (h : d.Reachable) :
    P d.antic := by
  induction h with
  | on screen => exact kept.new
  | step store b _ ih => exact kept.step store b ih
  | scanLine store b _ ih => exact kept.scanLine ih
  | frame store b _ ih => exact kept.linesUpTo ih (Antic.maxLines + 1)
  | @takeRequest d _ ih =>
    exact kept.same (show d.takeRequest.2.antic.current = d.antic.current from rfl) rfl rfl ih
  | withScreen screen _ ih => exact ih

theorem Reachable.sound {d : Display} (h : d.Reachable) : d.antic.Sound := h.kept Antic.kept_sound

end Display

end Atari
