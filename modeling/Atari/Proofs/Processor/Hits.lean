import Atari.Proofs.Processor.Control

/-!
# Breakpoints along a run

Every step that succeeds looks at the breakpoints once, in the state that it leaves, and a step that fails
does not look at them. So the events of breakpoints in a run are those of the states behind its steps, one
after the other.

* `Processor.ownEvents`: what an instruction makes others than breakpoints write down;
* `Processor.strides`: the steps of a run, with the states before and behind them;
* **`Processor.breakpoints_watch_steps`**: what breakpoints see of a step and of a run.
-/

namespace Atari

namespace Processor

def withBreakpoints (p : Processor) (ks : Delegate Breakpoint Reaction) : Processor :=
  { p with breakpoints := ks }

/-- The processor without breakpoints, and with nothing written down. -/
def unwatched (p : Processor) : Processor := { p with breakpoints := {}, board := p.board.blank }

/-- What observers and hooks write into the journal in a step: all that is written without breakpoints. -/
def ownEvents (p : Processor) : List Event :=
  match p.unwatched.step with
  | .ok _ q => q.board.journal.reverse
  | .error _ _ => []

/-- The processor behind at most `n` steps; one that fails is the last one. -/
def afterSteps : (n : Nat) → Processor → Processor
  | 0, p => p
  | n + 1, p => match p.step with
    | .ok _ q => afterSteps n q
    | .error _ q => q

/-- At most `n` steps, up to one that fails: the processor before and behind each. -/
def strides : (n : Nat) → Processor → List (Processor × Processor)
  | 0, _ => []
  | n + 1, p => match p.step with
    | .ok _ q => (p, q) :: strides n q
    | .error _ _ => []

variable {p q : Processor} {l : LogLine}

/-! ## Steps -/

/-- **A step that succeeds** is the same with any breakpoints up to its last part, which writes the command
pointer. -/
theorem step_ok_watched (h : p.step = .ok l q) :
    ∃ r : Processor, (∀ ks past, (p.unwatched.watched ks past).step =
        .ok l (((r.watched ks past).setPc p.nextPc).trace l)) ∧
      q = ((r.watched p.breakpoints p.board.records).setPc p.nextPc).trace l := by
  obtain ⟨e, fails⟩ | ⟨l', r, -, goes⟩ := p.unwatched.step_watched
  · cases h.symm.trans (fails p.breakpoints p.board.records)
  · have same : p.unwatched.nextPc = p.nextPc :=
      (p.unwatched.nextPc_watched p.breakpoints p.board.records).symm
    rw [same] at goes
    cases h.symm.trans (goes p.breakpoints p.board.records)
    exact ⟨r, goes, rfl⟩

@[simp] theorem trace_registers (p : Processor) (l : LogLine) : (p.trace l).registers = p.registers := rfl

@[simp] theorem trace_memory (p : Processor) (l : LogLine) : (p.trace l).memory = p.memory :=
  Board.note_memory ..

@[simp] theorem trace_stop (p : Processor) (l : LogLine) : (p.trace l).board.stop = p.board.stop :=
  Board.note_stop ..

@[simp] theorem trace_journal (p : Processor) (l : LogLine) :
    (p.trace l).board.journal = p.board.journal := Board.note_journal ..

theorem trace_hits (p : Processor) (l : LogLine) : (p.trace l).hits = p.hits := by
  unfold hits
  rw [trace_memory]
  rfl

theorem trace_hitEvents (p : Processor) (l : LogLine) : (p.trace l).hitEvents = p.hitEvents := by
  rw [hitEvents, trace_hits]
  rfl

theorem step_pc (h : p.step = .ok l q) : q.pc = p.nextPc := by
  obtain ⟨r, -, rfl⟩ := step_ok_watched h
  rw [pc, trace_registers, setPc_registers]

/-- **What a step writes down**: what observers and hooks write, and then the breakpoints that are hit in
the state behind it. -/
theorem step_journal (h : p.step = .ok l q) :
    q.board.journal.reverse = p.board.journal.reverse ++ (p.ownEvents ++ q.hitEvents) := by
  obtain ⟨r, goes, rfl⟩ := step_ok_watched h
  -- Without breakpoints, the step leaves the journal of the instruction.
  have own : p.ownEvents = r.board.journal.reverse := by
    have bare := goes {} {}
    have start : p.unwatched.watched {} {} = p.unwatched := rfl
    rw [start] at bare
    rw [ownEvents, bare]
    dsimp only
    rw [trace_journal, setPc_journal]
    show (([] : List Event).reverse ++ (r.board.journal ++ [])).reverse = _
    rw [List.append_nil, List.reverse_nil, List.nil_append]
  rw [own, trace_hitEvents, trace_journal, setPc_journal, List.reverse_append, List.reverse_reverse]
  show (r.board.journal ++ p.board.journal).reverse ++ _ = _
  rw [List.reverse_append, List.append_assoc]

theorem step_stop (h : p.step = .ok l q) :
    q.board.stop = if .stop ∈ q.hits then some q.pc else p.board.stop := by
  obtain ⟨r, -, rfl⟩ := step_ok_watched h
  rw [trace_stop, trace_hits, setPc_stop, pc, trace_registers, setPc_registers]
  rfl

/-! ## Runs -/

theorem afterSteps_of_error {e : Fault} (h : p.step = .error e q) (n : Nat) : p.afterSteps n = p := by
  cases n with
  | zero => rfl
  | succ n => rw [afterSteps, h, eq_of_step_error h]

theorem afterSteps_of_ok (h : p.step = .ok l q) (n : Nat) :
    p.afterSteps (n + 1) = q.afterSteps n := by
  rw [afterSteps, h]

/-- **What a run writes down**, step by step. -/
theorem afterSteps_journal (n : Nat) (p : Processor) :
    (p.afterSteps n).board.journal.reverse = p.board.journal.reverse ++
      (p.strides n).flatMap fun s => s.1.ownEvents ++ s.2.hitEvents := by
  induction n generalizing p with
  | zero => exact (List.append_nil _).symm
  | succ n ih =>
    unfold strides
    cases h : p.step with
    | ok l q =>
      rw [afterSteps_of_ok h, ih, step_journal h, List.append_assoc]
      rfl
    | error e q =>
      rw [afterSteps_of_error h]
      exact (List.append_nil _).symm

/-- A run up to a condition is a run of so many steps, but for its notes in the log. -/
theorem runOn_afterSteps (condition : Condition) (n : Nat) (done : List LogLine) (p : Processor) :
    ∃ k ≤ n, ∃ log, let q := p.afterSteps k
      let q := { q with board := { q.board with log := log } }
      (∃ lines, runOn condition n done p = .ok lines q) ∨ ∃ e, runOn condition n done p = .error e q := by
  induction n generalizing done p with
  | zero => exact ⟨0, Nat.le_refl 0, p.board.log, .inl ⟨_, rfl⟩⟩
  | succ n ih =>
    unfold runOn
    by_cases met : condition p.registers p.memory
    · exact ⟨0, Nat.zero_le _, p.board.log, .inl ⟨_, if_pos met⟩⟩
    rw [if_neg met]
    cases h : p.step with
    | error e q =>
      obtain rfl := eq_of_step_error h
      exact ⟨0, Nat.zero_le _, q.board.log, .inr ⟨e, rfl⟩⟩
    | ok l q =>
      by_cases halted : q.pc = p.pc
      · -- A processor that stands still says so in the log, and the run ends behind this step.
        obtain ⟨log, noted⟩ := q.board.note_eq .debug fun _ => q.name ++ ": halted at " ++ p.pc.text
        refine ⟨1, Nat.le_add_left 1 n, log, .inl ⟨(l :: done).reverse, ?_⟩⟩
        rw [afterSteps_of_ok h]
        dsimp only
        rw [if_pos halted]
        exact congrArg (fun b => EStateM.Result.ok _ { q with board := b }) noted
      · obtain ⟨k, hk, log, run⟩ := ih (l :: done) q
        refine ⟨k + 1, Nat.succ_le_succ hk, log, ?_⟩
        rw [afterSteps_of_ok h]
        dsimp only
        rw [if_neg halted]
        exact run

/-- **Breakpoints are looked at once in a step**, in the state that it leaves, and not at all in a step
that fails. The command pointer is then where the instruction goes on by itself, or behind the
instruction. So a run writes down, step by step, the breakpoints that are hit in the states behind its
steps, each in the order of registration. -/
theorem breakpoints_watch_steps (p : Processor) :
    (∀ e q, p.step = .error e q → q = p ∧
      ∀ ks, (p.withBreakpoints ks).step = .error e (p.withBreakpoints ks)) ∧
    (∀ l q, p.step = .ok l q →
      q.pc = (p.fetch.destination? p).getD (p.pc + UInt16.ofNat (1 + p.fetch.mode.width)) ∧
      (∃ r : Processor, { r.registers with pc := q.pc } = q.registers ∧ r.memory = q.memory ∧
        ∀ ks, (p.withBreakpoints ks).step =
          .ok l (((r.withBreakpoints ks).setPc q.pc).trace l)) ∧
      q.board.journal.reverse = p.board.journal.reverse ++ (p.ownEvents ++ q.hitEvents) ∧
      q.board.stop = if .stop ∈ q.hits then some q.pc else p.board.stop) ∧
    (∀ n, (p.afterSteps n).board.journal.reverse = p.board.journal.reverse ++
      (p.strides n).flatMap fun s => s.1.ownEvents ++ s.2.hitEvents) ∧
    ∀ condition n, ∃ k ≤ n, ∃ log, let q := p.afterSteps k
      let q := { q with board := { q.board with log := log } }
      (∃ lines, p.runUntil condition n = .ok lines q) ∨ ∃ e, p.runUntil condition n = .error e q := by
  refine ⟨fun e q h => ?_, fun l q h => ?_, fun n => afterSteps_journal n p,
    fun condition n => runOn_afterSteps condition n [] p⟩
  · have fails (ks : Delegate Breakpoint Reaction) := step_failsFirst p (p.withBreakpoints ks) q e
      ⟨rfl, rfl, rfl, rfl⟩ h
    exact ⟨eq_of_step_error h, fun ks => (fails ks).2⟩
  · refine ⟨step_pc h, ?_, step_journal h, step_stop h⟩
    obtain ⟨r, goes, rfl⟩ := step_ok_watched h
    refine ⟨r.watched {} p.board.records, ?_, ?_, fun ks => ?_⟩
    · rw [pc, trace_registers, setPc_registers]
      rfl
    · rw [trace_memory, setPc_memory]
      rfl
    · rw [pc, trace_registers, setPc_registers]
      exact goes ks p.board.records

/-- A processor that stands before a jump to itself, with a breakpoint there. -/
def jumpToItself : Processor :=
  { table := .ofList [⟨"JMP", 0x00, .absolute, .jump⟩]
    breakpoints := (({} : Delegate Breakpoint Reaction).add { address := some 0 } (.record "here")).2 }

/-- Each jump to itself hits the breakpoint once. A load that fails hits none. -/
theorem breakpoints_watch_jumpToItself :
    (∃ l q, jumpToItself.step = .ok l q ∧ q.pc = jumpToItself.pc ∧ q.hits = [.record "here"] ∧
      q.board.journal.reverse =
        jumpToItself.board.journal.reverse ++ (jumpToItself.ownEvents ++ q.hitEvents)) ∧
      (jumpToItself.afterSteps 2).board.journal =
        [.breakpoint "here" (.initial 0), .breakpoint "here" (.initial 0)] ∧
      ∀ ks, (impliedLoad.withBreakpoints ks).step =
        .error (.resolution (.noValue .implied)) (impliedLoad.withBreakpoints ks) := by
  obtain ⟨-, steps, -⟩ := breakpoints_watch_steps jumpToItself
  obtain ⟨l, q, step, hits⟩ :
      ∃ l q, jumpToItself.step = .ok l q ∧ q.hits = [.record "here"] := ⟨_, _, rfl, rfl⟩
  obtain ⟨pc, -, journal, -⟩ := steps l q step
  exact ⟨⟨l, q, step, pc, hits, journal⟩, rfl,
    ((breakpoints_watch_steps impliedLoad).1 _ _ rfl).2⟩

end Processor

end Atari
