import Atari.Antic.Scan

/-!
# The interrupt that waits

The coprocessor has room for one interrupt that waits. A scan line may put another one there, and
apart from that it does not look at it.

* `Antic.behind`: the coprocessor with an interrupt that waits behind its own;
* **`Antic.scanLine_behind`**: a scan line is the same in front of an interrupt that waits.
-/

namespace Atari

namespace Antic

/-- The coprocessor with an interrupt that waits behind its own, which comes first if there is one. -/
def behind (antic : Antic) (r : Option InterruptSource) : Antic :=
  { antic with request := antic.request.or r }

variable (store : Store) (antic : Antic) (r : Option InterruptSource) (b : Board)

theorem verticalSync_behind : (antic.behind r).verticalSync store b =
    ((antic.verticalSync store b).1.behind r, (antic.verticalSync store b).2) := by
  unfold verticalSync behind
  dsimp only
  split
  · rfl
  · rfl

theorem step_behind : (antic.behind r).step store b =
    ((antic.step store b).1, (antic.step store b).2.1.behind r, (antic.step store b).2.2) := by
  unfold step
  dsimp only
  split
  · rfl
  · split
    · exact congrArg (Prod.mk _) (verticalSync_behind store { antic with
        current := some (DisplayInstruction.decode b.memory (Video.displayList b.memory)),
        remaining := 0 } r _)
    · rfl
  · split <;> rfl

theorem count_behind : (antic.behind r).count store b =
    ((antic.count store b).1.behind r, (antic.count store b).2) := rfl

theorem advance_behind (m : Memory) : (antic.behind r).advance m = (antic.advance m).behind r := by
  unfold advance behind
  dsimp only
  split <;> rfl

theorem endLine_behind : (antic.behind r).endLine store b =
    ((antic.endLine store b).1.behind r, (antic.endLine store b).2) := by
  unfold endLine
  rw [count_behind]
  generalize antic.count store b = counted
  obtain ⟨antic, b⟩ := counted
  have advanced := advance_behind
    { antic with remaining := antic.remaining - 1, row := antic.row + 1 } r b.memory
  unfold behind at advanced ⊢
  dsimp only at advanced ⊢
  split
  · rfl
  · rw [advanced]
    dsimp only
    split
    · rfl
    · rfl

theorem freeLine_behind : (antic.behind r).freeLine store b =
    ((antic.freeLine store b).1, (antic.freeLine store b).2.1.behind r,
      (antic.freeLine store b).2.2) := by
  unfold freeLine
  rw [verticalSync_behind, count_behind]
  show (if antic.line + 1 ≥ linesPerFrame then _ else _) = _
  split
  · rfl
  · rfl

theorem listLine_behind : (antic.behind r).listLine store b =
    ((antic.listLine store b).1, (antic.listLine store b).2.1.behind r,
      (antic.listLine store b).2.2) := by
  unfold listLine
  rw [endLine_behind]
  rfl

/-- **A scan line is the same in front of an interrupt that waits.** -/
theorem scanLine_behind : (antic.behind r).scanLine store b =
    ((antic.scanLine store b).1, (antic.scanLine store b).2.1.behind r,
      (antic.scanLine store b).2.2) := by
  unfold scanLine
  rw [step_behind, listLine_behind, freeLine_behind]
  show (if Video.displayListDma b.memory then (if antic.remaining = 0 then _ else _) else _) = _
  split
  · split
    · dsimp only
      split
      · rfl
      · exact listLine_behind ..
    · rfl
  · rfl

/-- **An interrupt that a scan line asks for takes the place of the one that waits.** -/
theorem request_scanLine : (antic.scanLine store b).2.1.request =
    (({ antic with request := none } : Antic).scanLine store b).2.1.request.or antic.request := by
  have split : ({ antic with request := none } : Antic).behind antic.request = antic := by
    unfold behind
    rw [Option.none_or]
  have drawn := scanLine_behind store { antic with request := none } antic.request b
  rw [split] at drawn
  rw [drawn]
  rfl

end Antic

end Atari
