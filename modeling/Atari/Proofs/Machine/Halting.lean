import Atari.Proofs.Machine.Quiet
import Atari.Proofs.Processor.Repeating

/-!
# Runs that stop where they stand

A run stops when a step leaves the command pointer where it was. That is one step, and whether it is the last word
depends on its instruction: a jump or a branch to itself is done for ever, but going back to where it is may be followed
by going back to another address.

* `Processor.StopsAt`: a run of a processor, or of a machine without a display, that stops so;
* **`Processor.StopsAt.halts_iff`**: when such a run has halted indeed.
-/

namespace Atari

namespace Processor

variable {p q : Processor} {l : LogLine} {a : Address} {n : Nat}

/-! ## The log -/

namespace SameButLog

theorem afterSteps (h : p.SameButLog q) (n : Nat) : (p.afterSteps n).SameButLog (q.afterSteps n) := by
  induction n generalizing p q with
  | zero => exact h
  | succ n ih =>
    rcases h.step.cases with ⟨l, r, s, hp, hq, alike⟩ | ⟨e, r, s, hp, hq, alike⟩
    · rw [afterSteps_of_ok hp, afterSteps_of_ok hq]
      exact ih alike
    · rwa [afterSteps_of_error hp, afterSteps_of_error hq]

theorem plain (h : p.SameButLog q) (plain : p.Plain) : q.Plain := by
  rcases h with ⟨log, rfl⟩
  exact ⟨plain.table, plain.free⟩

theorem halted (h : p.SameButLog q) (halted : p.Halted) : q.Halted := by
  intro n
  rcases halted n with ⟨l, r, step, here⟩
  rcases (h.afterSteps n).step.cases with ⟨l', r', s, hp, hq, alike⟩ | ⟨e, r', s, hp, -, -⟩
  · cases step.symm.trans hp
    refine ⟨l, s, hq, ?_⟩
    rw [pc, alike.registers, pc, h.registers]
    exact here
  · cases step.symm.trans hp

end SameButLog

/-! ## Runs of a processor -/

theorem getLast?_strides (all : (p.strides (n + 1)).length = n + 1) :
    (p.strides (n + 1)).getLast? = some (p.afterSteps n, p.afterSteps (n + 1)) ∧
      ∃ l, (p.afterSteps n).step = .ok l (p.afterSteps (n + 1)) := by
  induction n generalizing p with
  | zero =>
    cases step : p.step with
    | ok l q =>
      rw [strides_of_ok step, afterSteps_of_ok step]
      exact ⟨rfl, l, step⟩
    | error e q =>
      rw [strides, step] at all
      cases all
  | succ n ih =>
    cases step : p.step with
    | ok l q =>
      rw [strides_of_ok step, List.length_cons, Nat.add_right_cancel_iff] at all
      rcases ih all with ⟨last, succeeds⟩
      rw [strides_of_ok step, afterSteps_of_ok step, afterSteps_of_ok step, List.getLast?_cons, last]
      exact ⟨rfl, succeeds⟩
    | error e q =>
      rw [strides, step] at all
      cases all

/-- A run up to a condition has done a step for each of its lines. -/
theorem runOn_strides {condition : Condition} {done lines : List LogLine}
    (h : runOn condition n done p = .ok lines q) : ∃ k, lines.length = done.length + k ∧
      (p.strides k).length = k ∧ (p.afterSteps k).SameButLog q := by
  induction n generalizing done p with
  | zero =>
    cases h
    exact ⟨0, List.length_reverse, rfl, .refl _⟩
  | succ n ih =>
    rw [runOn] at h
    dsimp only at h
    split_ifs at h with met
    · cases h
      exact ⟨0, List.length_reverse, rfl, .refl _⟩
    cases step : p.step with
    | error e r =>
      rw [step] at h
      cases h
    | ok l r =>
      rw [step] at h
      dsimp only at h
      split_ifs at h with here
      · cases h
        refine ⟨1, by simp, ?_, ?_⟩
        · rw [strides_of_ok step]
          rfl
        · rw [afterSteps_of_ok step]
          exact .noted ..
      · rcases ih h with ⟨k, length, all, alike⟩
        refine ⟨k + 1, ?_, ?_, ?_⟩
        · rw [length, List.length_cons]
          omega
        · rw [strides_of_ok step, List.length_cons, all]
        · rwa [afterSteps_of_ok step]

end Processor

namespace Machine

variable {p q : Processor} {l : LogLine} {trace : Bool} {n steps done : Nat} {lines kept : List LogLine} {a : Address}

/-! ## Runs of a machine -/

theorem turn_none {stop : Option Stop} (h : turn none p = .ok (l, stop) q) :
    (∃ found, stop = some (.breakpoint found)) ∨
      p.step = .ok l q ∧ stop = if q.pc = p.pc then some (.halted p.pc) else none := by
  unfold turn at h
  dsimp only at h
  cases step : p.step with
  | error e r =>
    rw [step] at h
    cases h
  | ok l' r =>
    rw [step] at h
    dsimp only at h
    split at h
    · cases h
      exact .inl ⟨_, rfl⟩
    · cases h
      exact .inr ⟨rfl, rfl⟩

/-- A run that halts has done its steps, and the last one stands. -/
theorem runOn_halted (h : runOn none trace n steps lines p = .ok (done, kept, some (.halted a)) q) :
    ∃ k l, done = steps + (k + 1) ∧ (p.afterSteps k).step = .ok l q ∧ (p.afterSteps k).pc = a ∧ q.pc = a := by
  induction n generalizing steps lines p with
  | zero => cases h
  | succ n ih =>
    cases turned : turn none p with
    | error e r => cases (runOn_of_error turned).symm.trans h
    | ok v r =>
      rcases v with ⟨l, _ | stop⟩
      · rw [runOn_of_next turned] at h
        rcases ih h with ⟨k, l', count, step', at_a⟩
        rcases turn_none turned with ⟨found, stopped⟩ | ⟨step, -⟩
        · cases stopped
        · refine ⟨k + 1, l', by omega, ?_⟩
          rw [Processor.afterSteps_of_ok step]
          exact ⟨step', at_a⟩
      · cases (runOn_of_stop turned).symm.trans h
        rcases turn_none turned with ⟨found, stopped⟩ | ⟨step, stopped⟩
        · cases stopped
        · split_ifs at stopped with here
          cases stopped
          exact ⟨0, l, rfl, step, rfl, here⟩

end Machine

namespace Processor

variable {p q : Processor} {a : Address} {n : Nat}

/-! ## Runs that stop where they stand -/

/-- A run of `n` steps that leaves `q` stops because the last of them left the command pointer at `a`: a run of the
processor up to a condition, or of a machine that has it and no display. -/
inductive StopsAt (p : Processor) (n : Nat) (a : Address) (q : Processor) : Prop
  | runUntil {condition : Condition} {limit : Nat} {lines : List LogLine} :
      p.runUntil condition limit = .ok lines q → lines.length = n → p.standsAt? n = some a → StopsAt p n a q
  | run {limit : Nat} {trace : Bool} {report : Report} :
      (⟨p, none, limit⟩ : Machine).run trace = (.ok report, ⟨q, none, limit⟩) → report.steps = n →
      report.stop = .halted a → StopsAt p n a q

theorem StopsAt.last (h : p.StopsAt n a q) : ∃ k l t, n = k + 1 ∧ (p.afterSteps k).step = .ok l t ∧
    (p.afterSteps k).pc = a ∧ t.pc = a ∧ t.SameButLog q := by
  cases h with
  | @runUntil condition limit lines run length stands =>
    rcases runOn_strides run with ⟨k, count, all, alike⟩
    rw [length, List.length_nil, Nat.zero_add] at count
    rw [← count] at all alike
    cases n with
    | zero => cases stands
    | succ k =>
      rcases getLast?_strides all with ⟨last, l, step⟩
      rw [standsAt?, last, Option.bind_some] at stands
      split_ifs at stands with here
      cases stands
      exact ⟨k, l, _, rfl, step, rfl, here, alike⟩
  | @run limit trace report run steps stop =>
    cases ended : Machine.runOn none trace limit 0 [] p with
    | error e r =>
      rw [Machine.run_of_error (m := ⟨p, none, limit⟩) ended] at run
      cases run
    | ok v r =>
      rcases v with ⟨done, kept, stopped⟩
      rcases Machine.run_of_ok (m := ⟨p, none, limit⟩) ended with ⟨body, ran⟩
      cases ran.symm.trans run
      cases stopped with
      | none => cases stop
      | some s =>
        cases stop
        rcases Machine.runOn_halted ended with ⟨k, l, count, step, before, after⟩
        exact ⟨k, l, r, steps.symm.trans (count.trans (Nat.zero_add _)), step, before, after, .noted ..⟩

/-- **When a run that stops where it stands has halted.** The step that it ends with is a jump or a branch to itself,
going back to where it is, or a call or a software interrupt that leads to itself. Jumps and branches stand for ever.
Going back does exactly if the whole stack leads there. In general, who stands for ever comes, without moving, to a
step that is repeated, and nobody else does; and 768 more steps tell. -/
theorem StopsAt.halts_iff (table : p.table = .nmos) (free : ∀ a, p.board.hooks.on a = []) (h : p.StopsAt n a q) :
    ∃ k l t, n = k + 1 ∧ (p.afterSteps k).step = .ok l t ∧ t.SameButLog q ∧
      (p.afterSteps k).pc = a ∧ q.pc = a ∧
      let s := p.afterSteps k
      let operation := s.fetch.instruction.operation
      (operation = .jump ∨ (∃ f v, operation = .branch f v) ∨ operation = .call ∨ operation = .returnFromCall ∨
        operation = .softwareInterrupt ∨ operation = .returnFromInterrupt) ∧
      (operation = .jump ∨ (∃ f v, operation = .branch f v) → q.Halted) ∧
      (operation ≠ .call → operation ≠ .softwareInterrupt → (q.Halted ↔ s.Repeats)) ∧
      (s.Repeats → q.Halted) ∧
      (q.Halted ↔ ∃ j < 512, s.StandsFor (j + 1) ∧ (s.afterSteps j).Repeats) ∧
      (q.Halted ↔ q.StandsFor 768) := by
  rcases h.last with ⟨k, l, t, count, step, before, after, alike⟩
  have plain : (p.afterSteps k).Plain := Plain.afterSteps ⟨table, free⟩ k
  have here : t.pc = (p.afterSteps k).pc := after.trans before.symm
  have stands : (p.afterSteps k).Stands := ⟨l, t, step, here⟩
  have same : q.Halted ↔ (p.afterSteps k).Halted :=
    Iff.trans ⟨alike.symm.halted, alike.halted⟩ (halted_iff_of_step step here)
  have there : q.pc = a := by rw [pc, alike.registers, ← after, pc]
  have bounded := halted_iff_standsFor (alike.plain (plain.step step))
  refine ⟨k, l, t, count, step, alike, before, there, ?_⟩
  intro s operation
  rw [← bounded, same]
  exact ⟨stands.operation, fun jumps => (repeats_jump jumps).halted plain stands, halted_iff_repeats plain stands,
    fun again => again.halted plain stands, halted_iff plain, Iff.rfl⟩

/-- A processor before an instruction in an empty memory. -/
def standing (opcode : Byte) (a : Address) : Processor where
  registers := .initial a
  board := { memory := Memory.zero.set a opcode }

theorem plain_standing (opcode : Byte) (a : Address) : (standing opcode a).Plain := ⟨rfl, fun _ => rfl⟩

theorem stopsAt_standing (opcode : Byte) (a : Address)
    (stops : (match (standing opcode a).runUntil .never 2 with
      | .ok lines _ => some (lines.length, (standing opcode a).standsAt? 1)
      | .error _ _ => none) = some (1, some a)) : ∃ q, (standing opcode a).StopsAt 1 a q := by
  cases run : (standing opcode a).runUntil .never 2 with
  | error e q =>
    rw [run] at stops
    cases stops
  | ok lines q =>
    rw [run] at stops
    simp only [Option.some.injEq, Prod.mk.injEq] at stops
    exact ⟨q, .runUntil run stops.1 stops.2⟩

/-- In an empty memory, a jump at address zero leads to itself, and so does going back to address one, all over the
stack. -/
theorem halts_iff_standing : (∃ q, (standing 0x4C 0).StopsAt 1 0 q ∧ q.Halted) ∧
    ∃ q, (standing 0x60 1).StopsAt 1 1 q ∧ q.Halted := by
  constructor
  · rcases stopsAt_standing 0x4C 0 (by decide +kernel) with ⟨q, stopped⟩
    have jumps : (standing 0x4C 0).fetch.instruction.operation = .jump := by decide +kernel
    rcases stopped.halts_iff (plain_standing ..).table (plain_standing ..).free with
      ⟨k, l, t, count, -, -, -, -, -, halts, -⟩
    cases count
    exact ⟨q, stopped, halts (.inl jumps)⟩
  · rcases stopsAt_standing 0x60 1 (by decide +kernel) with ⟨q, stopped⟩
    have returns : ((standing 0x60 1).afterSteps 0).fetch.instruction.operation = .returnFromCall := by decide +kernel
    have full (v : Byte) : (standing 0x60 1).memory.peek (stackSlot v) =
        ((standing 0x60 1).pc - 1).inSlot (standing 0x60 1).registers.sp v := by
      have other : (1 : Address) ≠ stackSlot v := by
        intro same
        have page := high_stackSlot v
        rw [← same] at page
        exact absurd page (by decide)
      have byte : (standing 0x60 1).memory.peek (stackSlot v) = 0 := by
        show (Memory.zero.set 1 0x60).peek (stackSlot v) = 0
        rw [Memory.peek_set, if_neg other, Memory.peek_zero]
      rw [byte, Address.inSlot]
      split_ifs <;> rfl
    rcases stopped.halts_iff (plain_standing ..).table (plain_standing ..).free with
      ⟨k, l, t, count, -, -, -, -, -, -, -, again, -⟩
    cases count
    refine ⟨q, stopped, again ?_⟩
    simp only [Repeats, returns]
    exact full

/-- A processor before an instruction that goes back from a call. The stack leads back to it, and then to a jump to
itself. -/
def returning : Processor where
  registers := { Registers.initial 0x1000 with sp := 0xF0 }
  board := { memory := (((((((Memory.zero.set 0x1000 0x60).set 0x01F1 0xFF).set 0x01F2 0x0F).set 0x01F3 0x02).set
    0x01F4 0x20).set 0x2003 0x4C).set 0x2004 0x03).set 0x2005 0x20 }

theorem not_halted_of_nextPc (h : p.nextPc ≠ p.pc) : ¬ p.Halted := by
  intro halted
  rcases halted 0 with ⟨l, q, step, here⟩
  exact h ((step_pc step).symm.trans here)

/-- It stops with its first step, and has not halted: the next one goes on. -/
theorem returning_stops_early : returning.table = .nmos ∧ (∀ a, returning.board.hooks.on a = []) ∧
    (∃ lines q, returning.runUntil .never 5 = .ok lines q ∧ lines.length = 1 ∧
      returning.standsAt? 1 = some 0x1000 ∧ q.nextPc = 0x2003 ∧ ¬ q.Halted) ∧
    ∃ report q, (⟨returning, none, 5⟩ : Machine).run true = (.ok report, ⟨q, none, 5⟩) ∧ report.steps = 1 ∧
      report.stop = .halted 0x1000 ∧ q.nextPc = 0x2003 ∧ ¬ q.Halted := by
  have leaves {q : Processor} (here : q.pc = 0x1000) (next : q.nextPc = 0x2003) : ¬ q.Halted := by
    apply not_halted_of_nextPc
    rw [here, next]
    decide
  have stops : (match returning.runUntil .never 5 with
      | .ok lines q => some (lines.length, returning.standsAt? 1, q.pc, q.nextPc)
      | .error _ _ => none) = some (1, some 0x1000, 0x1000, 0x2003) := by decide +kernel
  have reports : (match (⟨returning, none, 5⟩ : Machine).run true with
      | (.ok report, m) => some (report.steps, report.stop, m.processor.pc, m.processor.nextPc)
      | (.error _, _) => none) = some (1, .halted 0x1000, 0x1000, 0x2003) := by decide +kernel
  have kept : ((⟨returning, none, 5⟩ : Machine).run true).2.frames = none ∧
      ((⟨returning, none, 5⟩ : Machine).run true).2.maxSteps = 5 := by decide +kernel
  refine ⟨rfl, fun _ => rfl, ?_, ?_⟩
  · cases run : returning.runUntil .never 5 with
    | error e q =>
      rw [run] at stops
      cases stops
    | ok lines q =>
      rw [run] at stops
      simp only [Option.some.injEq, Prod.mk.injEq] at stops
      rcases stops with ⟨length, stands, here, next⟩
      exact ⟨lines, q, rfl, length, stands, next, leaves here next⟩
  · rcases run : (⟨returning, none, 5⟩ : Machine).run true with ⟨_ | report, q, frames, limit⟩
    · rw [run] at reports
      cases reports
    · rw [run] at reports kept
      simp only [Option.some.injEq, Prod.mk.injEq] at reports
      rcases reports with ⟨steps, stop, here, next⟩
      rcases kept with ⟨rfl, rfl⟩
      exact ⟨report, q, rfl, steps, stop, next, leaves here next⟩

end Processor

end Atari
