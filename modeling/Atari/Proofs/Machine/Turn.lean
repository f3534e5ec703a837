import Atari.Machine.Basic
import Atari.Proofs.Processor.Failure

/-!
# The turns of a machine

A run is a row of turns: an instruction, and what follows before the next one.

* `Turn`: one turn; `Machine.turns`: the turns of a run;
* `Machine.Row`: turns that follow each other, of which the last one alone may stop;
* **`Machine.run_cases`**: a run does its turns, and then reports them or fails;
* `Machine.history`: the turns of several runs, one after the other;
* `Machine.Path`: turns that follow each other, with **`Machine.history_path`** and the induction
  `Machine.Path.invariant`.
-/

namespace Atari

/-- One turn of a machine. -/
structure Turn where
  /-- The processor before the instruction. -/
  before : Processor
  line : LogLine
  /-- The processor behind the instruction. -/
  executed : Processor
  stop : Option Stop
  /-- The processor before the next instruction. -/
  after : Processor

/-- Whether a run stops at a breakpoint. -/
def Stop.isBreakpoint : Stop → Bool
  | breakpoint _ => true
  | halted _ | stepLimit _ | framesRendered _ => false

namespace Turn

/-- Whether a turn stops at a breakpoint. -/
def atBreakpoint (t : Turn) : Bool := t.stop.any (·.isBreakpoint)

/-- The machine takes this turn, with the given number of frames to be drawn. -/
structure Of (frames : Option Nat) (t : Turn) : Prop where
  step : t.before.step = .ok t.line t.executed
  turn : Machine.turn frames t.before = .ok (t.line, t.stop) t.after

end Turn

namespace Machine

variable {frames : Option Nat} {p q : Processor} {t : Turn} {ts : List Turn}

/-- The turns of a run with at most `n` steps. -/
def turns (frames : Option Nat) : (n : Nat) → Processor → List Turn
  | 0, _ => []
  | n + 1, p =>
    match p.step, turn frames p with
    | .ok l executed, .ok (_, some stop) after => [⟨p, l, executed, some stop, after⟩]
    | .ok l executed, .ok (_, none) after =>
      ⟨p, l, executed, none, after⟩ :: turns frames n after
    | .ok _ _, .error _ _ | .error _ _, _ => []

/-- Turns that lead from one processor to another. The last one alone may stop the run. -/
inductive Row (frames : Option Nat) : Processor → List Turn → Processor → Prop
  | nil (p : Processor) : Row frames p [] p
  | stop {t : Turn} {s : Stop} : t.Of frames → t.stop = some s → Row frames t.before [t] t.after
  | cons {t : Turn} {ts : List Turn} {q : Processor} : t.Of frames → t.stop = none →
      Row frames t.after ts q → Row frames t.before (t :: ts) q

/-! ## One turn -/

theorem turn_error {e : Fault} (h : p.step = .error e q) : turn frames p = .error e q := by
  unfold turn
  dsimp only
  rw [h]

theorem turn_ok (frames : Option Nat) {l : LogLine} (h : p.step = .ok l q) :
    ∃ stop r, turn frames p = .ok (l, stop) r := by
  unfold turn
  dsimp only
  rw [h]
  dsimp only
  split
  · exact ⟨_, _, rfl⟩
  · split
    · exact ⟨_, _, rfl⟩
    · exact ⟨_, _, rfl⟩

/-! ## Runs -/

section First

variable {trace : Bool} {n steps : Nat} {lines : List LogLine} {l : LogLine} {s : Stop}

theorem runOn_of_error {e : Fault} (h : turn frames p = .error e q) :
    runOn frames trace (n + 1) steps lines p = .error e q := by
  rw [runOn]
  dsimp only
  rw [h]

theorem runOn_of_stop (h : turn frames p = .ok (l, some s) q) : runOn frames trace (n + 1) steps lines p =
    .ok (steps + 1, (keep trace l lines).reverse, some s) q := by
  rw [runOn]
  dsimp only
  rw [h]

theorem runOn_of_next (h : turn frames p = .ok (l, none) q) : runOn frames trace (n + 1) steps lines p =
    runOn frames trace n (steps + 1) (keep trace l lines) q := by
  rw [runOn]
  dsimp only
  rw [h]

end First

/-- **The turns of a run follow each other**, and the run does them. It ends with the stop of the last one, or when it
has made all its steps. -/
theorem runOn_row (frames : Option Nat) (trace : Bool) (n steps : Nat) (lines : List LogLine) (p : Processor) :
    ∃ q, Row frames p (turns frames n p) q ∧
      ((∃ kept, runOn frames trace n steps lines p =
          .ok (steps + (turns frames n p).length, kept, (turns frames n p).getLast?.bind (·.stop)) q ∧
          (trace = true → kept = lines.reverse ++ (turns frames n p).map (·.line)) ∧
          ((turns frames n p).getLast?.bind (·.stop) = none → (turns frames n p).length = n)) ∨
        (∃ e, runOn frames trace n steps lines p = .error e q ∧ q.step = .error e q ∧
          (turns frames n p).getLast?.bind (·.stop) = none)) := by
  induction n generalizing steps lines p with
  | zero => exact ⟨p, .nil p, .inl ⟨_, rfl, fun _ => (List.append_nil _).symm, fun _ => rfl⟩⟩
  | succ n ih =>
    cases hs : p.step with
    | error e r =>
      obtain rfl := Processor.eq_of_step_error hs
      have none : turns frames (n + 1) r = [] := by
        rw [turns, hs]
      rw [none]
      exact ⟨r, .nil r, .inr ⟨e, runOn_of_error (turn_error hs), hs, rfl⟩⟩
    | ok l executed =>
      obtain ⟨stop, after, ht⟩ := turn_ok frames hs
      cases stop with
      | some stop =>
        have only : turns frames (n + 1) p = [⟨p, l, executed, some stop, after⟩] := by
          rw [turns, hs, ht]
        rw [only]
        refine ⟨after, Row.stop (t := ⟨p, l, executed, some stop, after⟩) ⟨hs, ht⟩ rfl,
          .inl ⟨(keep trace l lines).reverse, runOn_of_stop ht, ?_, nofun⟩⟩
        rintro rfl
        exact List.reverse_cons
      | none =>
        have first : turns frames (n + 1) p =
            ⟨p, l, executed, none, after⟩ :: turns frames n after := by
          rw [turns, hs, ht]
        have run : runOn frames trace (n + 1) steps lines p =
            runOn frames trace n (steps + 1) (keep trace l lines) after := runOn_of_next ht
        have last : (turns frames (n + 1) p).getLast?.bind (·.stop) =
            (turns frames n after).getLast?.bind (·.stop) := by
          rw [first, List.getLast?_cons]
          cases (turns frames n after).getLast? <;> rfl
        obtain ⟨q, row, outcome⟩ := ih (steps + 1) (keep trace l lines) after
        rw [run, last, first]
        refine ⟨q, Row.cons (t := ⟨p, l, executed, none, after⟩) ⟨hs, ht⟩ rfl row, ?_⟩
        obtain ⟨kept, hok, hkept, hall⟩ | failed := outcome
        · refine .inl ⟨kept, ?_, ?_, fun unstopped => congrArg (· + 1) (hall unstopped)⟩
          · rw [hok, List.length_cons, Nat.add_assoc, Nat.add_comm 1]
          · rintro rfl
            rw [hkept rfl]
            simp [keep]
        · exact .inr failed

section Whole

variable {m : Machine} {trace : Bool}

theorem run_of_ok {steps : Nat} {kept : List LogLine} {stop : Option Stop}
    (h : runOn m.frames trace m.maxSteps 0 [] m.processor = .ok (steps, kept, stop) q) :
    ∃ body, m.run trace = (.ok ⟨steps, kept, stop.getD (.stepLimit m.maxSteps),
      framesDrawn (q.onBoard (·.note .info body)).board⟩,
        { m with processor := q.onBoard (·.note .info body) }) := by
  unfold run execution
  dsimp only
  rw [h]
  exact ⟨_, rfl⟩

theorem run_of_error {e : Fault} (h : runOn m.frames trace m.maxSteps 0 [] m.processor = .error e q) :
    m.run trace = (.error e, { m with processor := q }) := by
  unfold run execution
  dsimp only
  rw [h]

end Whole

/-- **A run does its turns.** It reports them, and leaves a note, or fails behind the last one. -/
theorem run_cases (m : Machine) (trace : Bool) :
    ∃ q, Row m.frames m.processor (turns m.frames m.maxSteps m.processor) q ∧
      ((∃ report body, m.run trace = (.ok report, { m with processor := q.onBoard (·.note .info body) }) ∧
          report.steps = (turns m.frames m.maxSteps m.processor).length ∧
          (trace = true → report.lines = (turns m.frames m.maxSteps m.processor).map (·.line)) ∧
          report.stop = ((turns m.frames m.maxSteps m.processor).getLast?.bind (·.stop)).getD
            (.stepLimit m.maxSteps) ∧
          ((turns m.frames m.maxSteps m.processor).getLast?.bind (·.stop) = none →
            (turns m.frames m.maxSteps m.processor).length = m.maxSteps)) ∨
        (∃ e, m.run trace = (.error e, { m with processor := q }) ∧ q.step = .error e q ∧
          (turns m.frames m.maxSteps m.processor).getLast?.bind (·.stop) = none)) := by
  obtain ⟨q, row, ⟨kept, hok, hkept, hall⟩ | ⟨e, herror, fails, unstopped⟩⟩ :=
    runOn_row m.frames trace m.maxSteps 0 [] m.processor
  · obtain ⟨body, run⟩ := run_of_ok hok
    exact ⟨q, row, .inl ⟨_, body, run, Nat.zero_add _, hkept, rfl, hall⟩⟩
  · exact ⟨q, row, .inr ⟨e, run_of_error herror, fails, unstopped⟩⟩

/-! ## Several runs -/

/-- How a run is asked for. -/
structure Call where
  maxSteps : Nat
  trace : Bool
  deriving DecidableEq, Repr

def call (m : Machine) (c : Call) : Except Fault Report × Machine :=
  ({ m with maxSteps := c.maxSteps } : Machine).run c.trace

def turnsOf (m : Machine) (c : Call) : List Turn := turns m.frames c.maxSteps m.processor

def afterCalls : Machine → List Call → Machine
  | m, [] => m
  | m, c :: calls => (m.call c).2.afterCalls calls

/-- The turns of several runs. -/
def history : Machine → List Call → List Turn
  | _, [] => []
  | m, c :: calls => m.turnsOf c ++ (m.call c).2.history calls

/-- Turns that follow each other, with notes in between. -/
inductive Path (frames : Option Nat) : Processor → List Turn → Processor → Prop
  | nil (p : Processor) : Path frames p [] p
  | turn {t : Turn} {ts : List Turn} {q : Processor} : t.Of frames → Path frames t.after ts q →
      Path frames t.before (t :: ts) q
  | note {p q : Processor} {ts : List Turn} (body : Unit → String) :
      Path frames (p.onBoard (·.note .info body)) ts q → Path frames p ts q

theorem Path.append {r : Processor} {us : List Turn} (h : Path frames p ts q) (k : Path frames q us r) :
    Path frames p (ts ++ us) r := by
  induction h with
  | nil => exact k
  | turn of _ ih => exact .turn of (ih k)
  | note body _ ih => exact .note body (ih k)

theorem Row.path (h : Row frames p ts q) : Path frames p ts q := by
  induction h with
  | nil p => exact .nil p
  | stop of _ => exact .turn of (.nil _)
  | cons of _ _ ih => exact .turn of ih

theorem call_path (m : Machine) (c : Call) :
    Path m.frames m.processor (m.turnsOf c) (m.call c).2.processor ∧
      (m.call c).2.frames = m.frames := by
  obtain ⟨q, row, ⟨report, body, run, -⟩ | ⟨e, run, -⟩⟩ :=
    ({ m with maxSteps := c.maxSteps } : Machine).run_cases c.trace
  · have path := row.path.append (.note body (.nil _))
    rw [List.append_nil] at path
    rw [call, run]
    exact ⟨path, rfl⟩
  · rw [call, run]
    exact ⟨row.path, rfl⟩

/-- **The turns of several runs follow each other.** -/
theorem history_path (m : Machine) (calls : List Call) :
    Path m.frames m.processor (m.history calls) (m.afterCalls calls).processor ∧
      (m.afterCalls calls).frames = m.frames := by
  induction calls generalizing m with
  | nil => exact ⟨.nil _, rfl⟩
  | cons c calls ih =>
    obtain ⟨first, same⟩ := m.call_path c
    obtain ⟨rest, same'⟩ := ih (m.call c).2
    rw [same] at rest same'
    exact ⟨first.append rest, same'⟩

/-- What every turn of a path keeps, and a note does, holds before each of them, and behind the last. -/
theorem Path.invariant (path : Path frames p ts q) (Inv : Processor → Prop)
    (noted : ∀ (p : Processor) (body : Unit → String), Inv p → Inv (p.onBoard (·.note .info body)))
    (kept : ∀ t ∈ ts, t.Of frames → Inv t.before → Inv t.after) (h : Inv p) :
    (∀ t ∈ ts, t.Of frames ∧ Inv t.before) ∧ Inv q := by
  induction path with
  | nil => exact ⟨(fun _ ht => nomatch ht), h⟩
  | @turn t ts _ of _ ih =>
    obtain ⟨rest, last⟩ := ih (fun u hu => kept u (List.mem_cons_of_mem _ hu))
      (kept t List.mem_cons_self of h)
    refine ⟨fun u hu => ?_, last⟩
    cases hu with
    | head => exact ⟨of, h⟩
    | tail _ hu => exact rest u hu
  | note body _ ih => exact ih kept (noted _ body h)

end Machine

end Atari
