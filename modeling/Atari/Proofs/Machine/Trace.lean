import Atari.Proofs.Machine.Turn

/-!
# Runs with and without a trace

A trace keeps the lines of all steps, and without one only the last line is kept. The lines are for the report
alone: no turn looks at them. So a run without a trace is the run with a trace, whose report is cut short.

* `Report.lastOnly`: a report of which the last line is left;
* **`Machine.run_lastOnly`**: the same run, without a trace;
* **`Machine.run_lines`**: both runs, the turns that they do, and the lines that they keep.
-/

namespace Atari

/-- The report with the last line only. -/
def Report.lastOnly (r : Report) : Report := { r with lines := r.lines.getLast?.toList }

namespace Machine

/-- The end of a run with the last line only. -/
def lastOnly : EStateM.Result Fault Processor (Nat × List LogLine × Option Stop) →
    EStateM.Result Fault Processor (Nat × List LogLine × Option Stop)
  | .ok (steps, lines, stop) p => .ok (steps, lines.getLast?.toList, stop) p
  | .error e p => .error e p

theorem reverse_toList_head? (lines : List LogLine) :
    lines.head?.toList.reverse = lines.reverse.getLast?.toList := by
  rw [List.getLast?_reverse]
  cases lines <;> rfl

/-- **Without a trace, a run has kept the last line of those that it keeps with one**, wherever it ends. -/
theorem runOn_lastOnly (frames : Option Nat) (n steps : Nat) (lines : List LogLine) (p : Processor) :
    runOn frames false n steps lines.head?.toList p = lastOnly (runOn frames true n steps lines p) := by
  induction n generalizing steps lines p with
  | zero =>
    show EStateM.Result.ok (steps, lines.head?.toList.reverse, none) p = _
    rw [reverse_toList_head?]
    rfl
  | succ n ih =>
    cases turned : turn frames p with
    | error e q => rw [runOn_of_error turned, runOn_of_error turned, lastOnly]
    | ok answer q =>
      -- What was kept before is thrown away, and the new line takes its place.
      obtain ⟨l, stop | _⟩ := answer
      · rw [runOn_of_next turned, runOn_of_next turned]
        exact ih (steps + 1) (l :: lines) q
      · rw [runOn_of_stop turned, runOn_of_stop turned, lastOnly]
        exact congrArg (fun kept => EStateM.Result.ok (steps + 1, kept, _) q)
          (reverse_toList_head? (l :: lines))

/-- **A run without a trace is the run with a trace, whose report keeps the last line only**: it fails in the
same way or stops for the same reason, behind as many steps, with as many frames drawn, and it leaves the same
machine, down to its memory, its display and its screen. -/
theorem run_lastOnly (m : Machine) :
    m.run false = ((m.run true).1.map Report.lastOnly, (m.run true).2) := by
  have ends := runOn_lastOnly m.frames m.maxSteps 0 [] m.processor
  unfold run execution
  dsimp only
  rw [show runOn m.frames false m.maxSteps 0 [] m.processor = _ from ends]
  cases runOn m.frames true m.maxSteps 0 [] m.processor with
  | error e q => rfl
  | ok answer q => rfl

/-- **Whether a run is traced is seen in the lines of its report alone.** Both runs do the turns of the machine, one
after the other. Then both report them, with the stop of the last turn or behind all the steps that were allowed, or
both fail where no next turn is possible, and they leave the same machine. With a trace there is one line for each
step, in the order of the steps, and without one the last of those lines, if there is one. -/
theorem run_lines (m : Machine) :
    let ts := turns m.frames m.maxSteps m.processor
    ∃ q, Row m.frames m.processor ts q ∧
      ((∃ report body,
          m.run true = (.ok report, { m with processor := q.onBoard (·.note .info body) }) ∧
          m.run false = (.ok { report with lines := (ts.map (·.line)).getLast?.toList },
            { m with processor := q.onBoard (·.note .info body) }) ∧
          report.steps = ts.length ∧ report.lines = ts.map (·.line) ∧
          report.stop = (ts.getLast?.bind (·.stop)).getD (.stepLimit m.maxSteps) ∧
          (ts.getLast?.bind (·.stop) = none → ts.length = m.maxSteps)) ∨
        ∃ e, m.run true = (.error e, { m with processor := q }) ∧
          m.run false = (.error e, { m with processor := q }) ∧
          q.step = .error e q ∧ ts.getLast?.bind (·.stop) = none) := by
  intro ts
  have same := m.run_lastOnly
  obtain ⟨q, row, ⟨report, body, run, steps, lines, stop, all⟩ | ⟨e, run, fails, unstopped⟩⟩ := m.run_cases true
  · rw [run] at same
    refine ⟨q, row, .inl ⟨report, body, run, ?_, steps, lines rfl, stop, all⟩⟩
    rw [same, ← lines rfl]
    rfl
  · rw [run] at same
    exact ⟨q, row, .inr ⟨e, run, same, fails, unstopped⟩⟩

end Machine

end Atari
