import Atari.Proofs.Machine.Frames
import Atari.Proofs.Processor.Log

/-!
# Runs that go on

A run that stops for want of steps keeps nothing to itself: all that the next turn depends on is in the
processor. So the next run does what a longer run would have done, and only the log tells that there was a
pause.

* `Processor.SameButLog.turn`, `Processor.SameButLog.runOn`: a turn and a run do not see the log;
* `Report.followedBy`: two reports in one;
* **`Machine.call_resume`**: two runs are one.
-/

namespace Atari

open Machine (display)

/-! ## Turns do not see the log -/

namespace Board

variable {b c : Board}

theorem SameButLog.display_eq (h : b.SameButLog c) (i : Nat) : c.display? i = b.display? i := by
  obtain ⟨log, rfl⟩ := h
  rfl

theorem SameButLog.spun (h : b.SameButLog c) : b.spun.SameButLog c.spun := by
  have shown := h.display_eq display
  unfold Board.spun Board.scanLine withDisplay
  rw [shown]
  cases b.display? display with
  | none => exact h
  | some d =>
    have unseen := indiscernible_sameButLog.unseen indiscernible_sameButLog.store
    obtain ⟨line, antic, drawn⟩ := unseen.scanLine d.antic (indiscernible_sameButLog.lend h display)
    unfold Display.scanLine
    dsimp only
    rw [line, antic]
    exact indiscernible_sameButLog.giveBack drawn display _

theorem SameButLog.emptied (h : b.SameButLog c) :
    c.request? = b.request? ∧ b.emptied.SameButLog c.emptied := by
  have shown := h.display_eq display
  unfold request? Board.emptied takeRequest
  rw [shown]
  cases b.display? display with
  | none => exact ⟨rfl, h⟩
  | some d => exact ⟨rfl, indiscernible_sameButLog.giveBack h display _⟩

theorem SameButLog.framesDrawn_eq (h : b.SameButLog c) : Machine.framesDrawn c = Machine.framesDrawn b :=
  (indiscernible_sameButLog.same h).framesDrawn_eq

end Board

namespace Processor.SameButLog

open Execution Machine

variable {p q : Processor}

theorem interrupted (h : p.SameButLog q) (source : InterruptSource) :
    (Turn.interrupted p source).SameButLog (Turn.interrupted q source) := by
  have same : q.name = p.name := by
    obtain ⟨log, rfl⟩ := h
    rfl
  unfold Turn.interrupted
  rw [same]
  exact (h.note ..).nonMaskableInterrupt

theorem deliver (h : p.SameButLog q) : (deliver p).SameButLog (deliver q) := by
  obtain ⟨request, emptied⟩ := h.board.emptied
  rw [Turn.deliver_eq, Turn.deliver_eq, request]
  cases p.board.request? with
  | none => exact h.onBoard emptied
  | some source => exact (h.onBoard emptied).interrupted source

theorem attend (h : p.SameButLog q) (n : Nat) (halted : Bool) :
    (attend n halted q).1 = (attend n halted p).1 ∧
      (attend n halted p).2.SameButLog (attend n halted q).2 := by
  have drawn : (if halted then drawLine p else p).SameButLog (if halted then drawLine q else q) := by
    split
    · exact h.onBoard h.board.spun
    · exact h
  have delivered := drawn.deliver
  refine ⟨?_, delivered⟩
  unfold Machine.attend
  dsimp only
  have frames : framesDrawn (Machine.deliver (if halted then drawLine q else q)).board =
      framesDrawn (Machine.deliver (if halted then drawLine p else p)).board := delivered.board.framesDrawn_eq
  rw [frames]

variable (frames : Option Nat)

/-- **A turn does not see the log.** -/
theorem turn (h : p.SameButLog q) : EndAlike (Machine.turn frames p) (Machine.turn frames q) := by
  have here : q.pc = p.pc := congrArg (·.pc) h.registers
  unfold Machine.turn
  dsimp only
  rw [here]
  obtain ⟨l, p', q', hp, hq, alike⟩ | ⟨e, p', q', hp, hq, alike⟩ := h.step.cases
  · obtain ⟨log, board⟩ := alike.board
    have there : q'.pc = p'.pc := congrArg (·.pc) alike.registers
    have stop : q'.board.stop = p'.board.stop := by rw [board]
    rw [hp, hq]
    dsimp only
    rw [there, stop]
    cases p'.board.stop with
    | some a =>
      refine .ok (alike.onBoard ⟨log, ?_⟩)
      rw [board]
    | none =>
      cases frames with
      | none => exact .ok alike
      | some n =>
        obtain ⟨same, attended⟩ := alike.attend n (p'.pc = p.pc)
        dsimp only
        rw [same]
        exact .ok attended
  · rw [hp, hq]
    exact .error alike

/-- **Nor does a run.** -/
theorem runOn (h : p.SameButLog q) (trace : Bool) (n steps : Nat) (lines : List LogLine) :
    EndAlike (Machine.runOn frames trace n steps lines p) (Machine.runOn frames trace n steps lines q) := by
  induction n generalizing steps lines p q with
  | zero => exact .ok h
  | succ n ih =>
    obtain ⟨⟨l, _ | s⟩, p', q', hp, hq, alike⟩ | ⟨e, p', q', hp, hq, alike⟩ := (h.turn frames).cases
    · rw [runOn_of_next hp, runOn_of_next hq]
      exact ih alike ..
    · rw [runOn_of_stop hp, runOn_of_stop hq]
      exact .ok alike
    · rw [runOn_of_error hp, runOn_of_error hq]
      exact .error alike

end Processor.SameButLog

/-! ## Runs that go on -/

namespace LogLine

/-- The lines of a run and of the run that goes on behind it. Without a trace the last line is left. -/
def joined (trace : Bool) (first second : List LogLine) : List LogLine :=
  if trace = true ∨ second = [] then first ++ second else second

@[simp] theorem joined_nil (trace : Bool) (first : List LogLine) : joined trace first [] = first := by
  simp [joined]

@[simp] theorem nil_joined (trace : Bool) (second : List LogLine) : joined trace [] second = second := by
  simp [joined]

theorem joined_assoc (trace : Bool) (first second third : List LogLine) :
    joined trace (joined trace first second) third = joined trace first (joined trace second third) := by
  unfold joined
  cases trace with
  | true => simp
  | false =>
    by_cases none : third = []
    · simp [none]
    · simp [none]

end LogLine

/-- Why a run stops, counted from `n` steps before it. -/
def Stop.behind (n : Nat) : Stop → Stop
  | stepLimit k => stepLimit (n + k)
  | halted a => halted a
  | breakpoint a => breakpoint a
  | framesRendered k => framesRendered k

theorem Stop.behind_of_ne {s : Stop} (h : ∀ k, s ≠ .stepLimit k) (n : Nat) : s.behind n = s := by
  cases s with
  | stepLimit k => exact absurd rfl (h k)
  | _ => rfl

/-- The report of a run and of the run that goes on behind it, as of a single one. -/
def Report.followedBy (trace : Bool) (first second : Report) : Report where
  steps := first.steps + second.steps
  lines := LogLine.joined trace first.lines second.lines
  stop := second.stop.behind first.steps
  frames := second.frames

namespace Machine

open LogLine

variable {frames : Option Nat} {trace : Bool} {p q : Processor} {lines kept : List LogLine}
  {i j n steps done : Nat}

theorem reverse_keep (trace : Bool) (l : LogLine) (lines : List LogLine) :
    (keep trace l lines).reverse = joined trace lines.reverse [l] := by
  cases trace with
  | true => simp [keep, joined]
  | false => simp [keep, joined]

theorem turn_stop_ne_stepLimit {l : LogLine} {stop : Option Stop}
    (h : turn frames p = .ok (l, stop) q) (k : Nat) : stop ≠ some (.stepLimit k) := by
  rintro rfl
  have attended (n : Nat) (halted : Bool) (p : Processor) : (attend n halted p).1 ≠ some (.stepLimit k) := by
    intro same
    obtain ⟨none, -⟩ | ⟨drawn, -⟩ := Turn.attend_cases n halted p
    · cases none.symm.trans same
    · cases drawn.symm.trans same
  unfold turn at h
  dsimp only at h
  split at h
  · cases h
  · split at h
    · cases h
    · split at h
      · split at h <;> cases h
      · injection h with stopped
        exact attended _ _ _ (congrArg Prod.snd stopped)

theorem runOn_stop {stop : Option Stop} (h : runOn frames trace n steps lines p = .ok (done, kept, stop) q) :
    (stop = none → done = steps + n) ∧ ∀ k, stop ≠ some (.stepLimit k) := by
  induction n generalizing steps lines p with
  | zero =>
    cases h
    exact ⟨fun _ => rfl, fun k => by simp⟩
  | succ n ih =>
    cases turned : turn frames p with
    | error e r => cases (runOn_of_error turned).symm.trans h
    | ok v r =>
      obtain ⟨l, _ | s⟩ := v
      · rw [runOn_of_next turned] at h
        obtain ⟨all, unlimited⟩ := ih h
        exact ⟨fun none => (all none).trans (by omega), unlimited⟩
      · cases (runOn_of_stop turned).symm.trans h
        exact ⟨fun none => (by cases none), turn_stop_ne_stepLimit turned⟩

/-- **A run goes on where a shorter one has run out of steps.** -/
theorem runOn_add (h : runOn frames trace i steps lines p = .ok (done, kept, none) q) (j : Nat) :
    runOn frames trace (i + j) steps lines p = runOn frames trace j done kept.reverse q := by
  induction i generalizing steps lines p with
  | zero =>
    cases h
    rw [Nat.zero_add, List.reverse_reverse]
  | succ i ih =>
    rw [Nat.succ_add]
    cases turned : turn frames p with
    | error e r => cases (runOn_of_error turned).symm.trans h
    | ok v r =>
      obtain ⟨l, _ | s⟩ := v
      · rw [runOn_of_next turned] at h ⊢
        exact ih h
      · cases (runOn_of_stop turned).symm.trans h

/-- **What a run makes of earlier turns**: it counts on, and keeps their lines if it should. -/
theorem runOn_from (n steps : Nat) (lines : List LogLine) (p : Processor) :
    runOn frames trace n steps lines p = match runOn frames trace n 0 [] p with
      | .ok (k, kept, stop) q => .ok (steps + k, joined trace lines.reverse kept, stop) q
      | .error e q => .error e q := by
  induction n generalizing steps lines p with
  | zero => simp [runOn, joined]
  | succ n ih =>
    cases turned : turn frames p with
    | error e q => rw [runOn_of_error turned, runOn_of_error turned]
    | ok v q =>
      obtain ⟨l, _ | s⟩ := v
      · rw [runOn_of_next turned, runOn_of_next turned, ih, ih (0 + 1)]
        cases runOn frames trace n 0 [] q with
        | error e r => rfl
        | ok v r =>
          dsimp only
          rw [reverse_keep, reverse_keep, List.reverse_nil, nil_joined, joined_assoc, Nat.zero_add,
            Nat.add_assoc]
      · rw [runOn_of_stop turned, runOn_of_stop turned]
        dsimp only
        rw [reverse_keep, reverse_keep, List.reverse_nil, nil_joined, Nat.zero_add]

/-! ## Calls -/

section Calls

variable {m : Machine} {stop : Option Stop}

theorem call_of_ok (h : runOn m.frames trace n 0 [] m.processor = .ok (done, kept, stop) q) :
    ∃ body, m.call ⟨n, trace⟩ = (.ok ⟨done, kept, stop.getD (.stepLimit n), framesDrawn q.board⟩,
      ⟨q.onBoard (·.note .info body), m.frames, n⟩) := by
  obtain ⟨body, ran⟩ := run_of_ok (m := ⟨m.processor, m.frames, n⟩) h
  rw [(Processor.SameButLog.noted q .info body).board.framesDrawn_eq] at ran
  exact ⟨body, ran⟩

theorem call_of_error {e : Fault} (h : runOn m.frames trace n 0 [] m.processor = .error e q) :
    m.call ⟨n, trace⟩ = (.error e, ⟨q, m.frames, n⟩) := run_of_error (m := ⟨m.processor, m.frames, n⟩) h

theorem runOn_of_stepLimit {report : Report} (ran : (m.call ⟨n, trace⟩).1 = .ok report)
    (limit : report.stop = .stepLimit n) : report.steps = n ∧
      ∃ q, runOn m.frames trace n 0 [] m.processor = .ok (n, report.lines, none) q := by
  cases ended : runOn m.frames trace n 0 [] m.processor with
  | error e q =>
    rw [call_of_error ended] at ran
    cases ran
  | ok v q =>
    obtain ⟨steps, lines, stop⟩ := v
    obtain ⟨all, unlimited⟩ := runOn_stop ended
    obtain ⟨body, called⟩ := call_of_ok ended
    rw [called] at ran
    cases ran
    cases stop with
    | some s => exact absurd (congrArg some limit) (unlimited n)
    | none =>
      obtain rfl : steps = n := (all rfl).trans (Nat.zero_add n)
      exact ⟨rfl, q, rfl⟩

end Calls

/-- **Two runs are one.** If a run has run out of steps, the next run leaves what a run with the steps of both
leaves, but for the log, and the report of that run is the reports of both. If the next run fails, that run
fails in the same way and in the same place. -/
theorem call_resume (m : Machine) (i j : Nat) (trace : Bool) {first : Report}
    (ran : (m.call ⟨i, trace⟩).1 = .ok first) (limit : first.stop = .stepLimit i) :
    let paused := (m.call ⟨i, trace⟩).2
    first.steps = i ∧
    (m.call ⟨i + j, trace⟩).1 = (paused.call ⟨j, trace⟩).1.map (first.followedBy trace) ∧
    (m.call ⟨i + j, trace⟩).2.processor.SameButLog (paused.call ⟨j, trace⟩).2.processor := by
  obtain ⟨steps, q, ended⟩ := runOn_of_stepLimit ran limit
  obtain ⟨body, called⟩ := call_of_ok ended
  have whole := (runOn_add ended j).trans (runOn_from ..)
  have alike := (Processor.SameButLog.noted q .info body).runOn m.frames trace j 0 []
  intro paused
  have left : paused = ⟨q.onBoard (·.note .info body), m.frames, i⟩ := congrArg Prod.snd called
  refine ⟨steps, ?_⟩
  rw [left]
  obtain ⟨⟨k, kept, stop⟩, r, r', hr, hr', same⟩ | ⟨e, r, r', hr, hr', same⟩ := alike.cases
  · rw [hr, List.reverse_reverse] at whole
    obtain ⟨_, called⟩ := call_of_ok (m := m) whole
    obtain ⟨_, called'⟩ := call_of_ok (m := ⟨q.onBoard (·.note .info body), m.frames, i⟩) hr'
    have counted := same.board.framesDrawn_eq
    have goesOn : stop.getD (.stepLimit (i + j)) = (stop.getD (.stepLimit j)).behind i := by
      cases stop with
      | none => rfl
      | some s => exact (Stop.behind_of_ne (fun k same => (runOn_stop hr).2 k (congrArg some same)) i).symm
    rw [called, called', goesOn]
    refine ⟨?_, ((Processor.SameButLog.noted r ..).symm.trans same).trans (.noted r' ..)⟩
    show _ = Except.ok (Report.followedBy trace first _)
    rw [Report.followedBy, steps, counted]
  · rw [hr] at whole
    rw [call_of_error whole, call_of_error (m := ⟨q.onBoard (·.note .info body), m.frames, i⟩) hr']
    exact ⟨rfl, same⟩

/-- A run that is paused behind the instruction that draws a scan line, where the interrupt was entered, goes on
to the breakpoint in its routine. -/
theorem call_resume_sample : ∃ first, ((sample 0x0901).call ⟨1, true⟩).1 = .ok first ∧
    first.stop = .stepLimit 1 ∧
    ((sample 0x0901).call ⟨6, true⟩).1 =
      (((sample 0x0901).call ⟨1, true⟩).2.call ⟨5, true⟩).1.map (first.followedBy true) ∧
    ((sample 0x0901).call ⟨6, true⟩).1.toOption.map (fun r => (r.steps, r.lines.length, r.stop)) =
      some (2, 2, .breakpoint 0x0901) := by
  have paused : ((sample 0x0901).call ⟨1, true⟩).1.toOption.map (·.stop) = some (.stepLimit 1) := by
    decide +kernel
  cases ran : ((sample 0x0901).call ⟨1, true⟩).1 with
  | error e =>
    rw [ran] at paused
    cases paused
  | ok first =>
    rw [ran] at paused
    have limit : first.stop = .stepLimit 1 := Option.some.inj paused
    exact ⟨first, rfl, limit, ((sample 0x0901).call_resume 1 5 true ran limit).2.1, by decide +kernel⟩

end Machine

end Atari
