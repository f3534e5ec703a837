import Atari.Proofs.Machine.Resume

/-!
# Machines that nobody watches

Without a display and without breakpoints a machine does what its processor does by itself: the run of the
machine and the run of the processor count, halt and fail at the same step.

* `Processor.Quiet`: a processor without breakpoints, which nobody has asked to stop;
* `Processor.standsAt?`: where the last of several steps left the command pointer, if it left it there;
* **`Processor.Quiet.runOn_cases`**: both runs, turn by turn;
* **`Machine.call_runUntil`**: both runs of a machine.
-/

namespace Atari

/-- The condition of a run that goes on as long as it can. -/
def Condition.never : Condition := fun _ _ => false

namespace Processor

/-- The address of the last of at most `n` steps, if it left the command pointer there. -/
def standsAt? (p : Processor) (n : Nat) : Option Address :=
  (p.strides n).getLast?.bind fun s => if s.2.pc = s.1.pc then some s.1.pc else none

/-- A processor without breakpoints, which nobody has asked to stop. -/
structure Quiet (p : Processor) : Prop where
  breakpoints : p.breakpoints.entries = []
  stop : p.board.stop = none

variable {p q : Processor} {l : LogLine}

theorem Bare.quiet (h : p.Bare) : p.Quiet := ⟨h.breakpoints, h.stop⟩

theorem strides_of_ok (h : p.step = .ok l q) (n : Nat) : p.strides (n + 1) = (p, q) :: q.strides n := by
  rw [strides, h]

theorem standsAt?_of_halts (h : p.step = .ok l q) (halts : q.pc = p.pc) : p.standsAt? 1 = some p.pc := by
  rw [standsAt?, strides_of_ok h]
  exact if_pos halts

theorem standsAt?_of_goes (h : p.step = .ok l q) (goes : q.pc ≠ p.pc) (n : Nat) :
    p.standsAt? (n + 1) = q.standsAt? n := by
  rw [standsAt?, standsAt?, strides_of_ok h, List.getLast?_cons]
  cases (q.strides n).getLast? with
  | none => exact if_neg goes
  | some s => rfl

/-! ## Steps -/

theorem Quiet.note (h : p.Quiet) (level : Level) (body : Unit → String) :
    (p.onBoard (·.note level body)).Quiet :=
  ⟨h.breakpoints, (Board.note_stop ..).trans h.stop⟩

theorem Quiet.step (h : p.Quiet) (ran : p.step = .ok l q) : q.Quiet := by
  have kept : q.breakpoints = p.breakpoints := by
    obtain ⟨r, -, rfl⟩ := step_ok_watched ran
    exact setPc_breakpoints ..
  have none : q.hits = [] := by
    rw [hits, Delegate.called, kept, h.breakpoints]
    rfl
  refine ⟨kept ▸ h.breakpoints, ?_⟩
  rw [step_stop ran, none]
  exact h.stop

theorem Quiet.turn_of_ok (h : p.Quiet) (ran : p.step = .ok l q) :
    Machine.turn none p = .ok (l, if q.pc = p.pc then some (.halted p.pc) else none) q := by
  unfold Machine.turn
  dsimp only
  rw [ran]
  dsimp only
  rw [(h.step ran).stop]

/-! ## Runs -/

section Never

variable (n : Nat) (done : List LogLine)

theorem runOn_never_of_error {e : Fault} (h : p.step = .error e q) :
    runOn .never (n + 1) done p = .error e q := by
  rw [runOn]
  dsimp only [Condition.never]
  rw [h]
  rfl

theorem runOn_never_of_halts (h : p.step = .ok l q) (halts : q.pc = p.pc) :
    ∃ body, runOn .never (n + 1) done p = .ok (l :: done).reverse (q.onBoard (·.note .debug body)) := by
  rw [runOn]
  dsimp only [Condition.never]
  rw [h]
  dsimp only
  rw [if_pos halts]
  exact ⟨_, rfl⟩

theorem runOn_never_of_goes (h : p.step = .ok l q) (goes : q.pc ≠ p.pc) :
    runOn .never (n + 1) done p = runOn .never n (l :: done) q := by
  rw [runOn]
  dsimp only [Condition.never]
  rw [h]
  dsimp only
  rw [if_neg goes]
  rfl

end Never

/-- **The run of a machine and the run of its processor**, turn by turn: both fail in the same way, or both do
the same steps, and the machine halts where the last one of them stands. -/
theorem Quiet.runOn_cases (h : p.Quiet) (n steps : Nat) (lines : List LogLine) :
    (∃ e q, runOn .never n lines p = .error e q ∧ Machine.runOn none true n steps lines p = .error e q) ∨
    ∃ done q, runOn .never n lines p = .ok (lines.reverse ++ done) q ∧
      (p.afterSteps done.length).SameButLog q ∧
      Machine.runOn none true n steps lines p = .ok (steps + done.length, lines.reverse ++ done,
        (p.standsAt? done.length).map .halted) (p.afterSteps done.length) := by
  induction n generalizing p steps lines with
  | zero =>
    refine .inr ⟨[], p, ?_, .refl p, ?_⟩
    · rw [List.append_nil]
      rfl
    · rw [List.append_nil]
      rfl
  | succ n ih =>
    cases ran : p.step with
    | error e q =>
      exact .inl ⟨e, q, runOn_never_of_error n lines ran, Machine.runOn_of_error (Machine.turn_error ran)⟩
    | ok l q =>
      have turned := h.turn_of_ok ran
      by_cases halts : q.pc = p.pc
      · -- Both runs end here, and the processor says so in the log.
        obtain ⟨body, run⟩ := runOn_never_of_halts n lines ran halts
        rw [if_pos halts] at turned
        refine .inr ⟨[l], _, run.trans (by rw [List.reverse_cons]), ?_, ?_⟩
        · rw [List.length_singleton, afterSteps_of_ok ran]
          exact .noted q ..
        · rw [Machine.runOn_of_stop turned, List.length_singleton, standsAt?_of_halts ran halts,
            afterSteps_of_ok ran, Machine.reverse_keep]
          rfl
      · rw [if_neg halts] at turned
        rw [runOn_never_of_goes n lines ran halts, Machine.runOn_of_next turned]
        obtain ⟨e, r, run, run'⟩ | ⟨done, r, run, alike, run'⟩ := ih (h.step ran) (steps + 1) (l :: lines)
        · exact .inl ⟨e, r, run, run'⟩
        · refine .inr ⟨l :: done, r, ?_, ?_, ?_⟩
          · rw [run, List.reverse_cons, List.append_assoc, List.singleton_append]
          · rwa [List.length_cons, afterSteps_of_ok ran]
          · rw [List.length_cons, afterSteps_of_ok ran, standsAt?_of_goes ran halts]
            refine run'.trans ?_
            rw [List.reverse_cons, List.append_assoc, List.singleton_append, Nat.add_assoc,
              Nat.add_comm 1]

end Processor

namespace Machine

open Processor

/-! ## Machines -/

theorem quiet_afterCalls {m : Machine} (dark : m.frames = none) (quiet : m.processor.Quiet)
    (calls : List Call) : (m.afterCalls calls).frames = none ∧ (m.afterCalls calls).processor.Quiet := by
  obtain ⟨path, same⟩ := m.history_path calls
  rw [dark] at path same
  refine ⟨same, (path.invariant Quiet (fun p body h => h.note .info body) (fun t _ of h => ?_) quiet).2⟩
  have executed := h.step of.step
  obtain ⟨a, stopped, -⟩ | ⟨-, -, after⟩ := of.cases
  · cases executed.stop.symm.trans stopped
  · exact after ▸ executed

/-- **The run of a machine is the run of its processor**, if its machine file has neither a display nor
breakpoints. Both fail in the same way and in the same place, or they leave the same but for the log, and tell
the same lines. The machine has halted if the last step left the command pointer where it was, and has run out
of steps otherwise. -/
theorem call_runUntil {d : Disk} {screen : Except String Screen} {verbosity : Option Level} {f : MachineFile}
    {m : Machine} (made : ofFile d screen verbosity f = .ok m) (dark : f.frames = none)
    (free : f.breakpoints.getD [] = []) (calls : List Call) (n : Nat) :
    let m := m.afterCalls calls
    let p := m.processor
    match p.runUntil .never n with
    | .error e q => (m.call ⟨n, true⟩).1 = .error e ∧ (m.call ⟨n, true⟩).2.processor = q
    | .ok lines q => ∃ report, (m.call ⟨n, true⟩).1 = .ok report ∧ report.lines = lines ∧
        report.steps = lines.length ∧
        report.stop = ((p.standsAt? report.steps).map .halted).getD (.stepLimit n) ∧
        q.SameButLog (m.call ⟨n, true⟩).2.processor ∧ (p.afterSteps report.steps).SameButLog q := by
  obtain ⟨unshown, bare⟩ := bare_ofFile made dark free
  obtain ⟨unshown, quiet⟩ := quiet_afterCalls unshown bare.quiet calls
  intro m' p
  obtain ⟨e, q, run, run'⟩ | ⟨lines, q, run, alike, run'⟩ := quiet.runOn_cases n 0 []
  · rw [← unshown] at run'
    rw [runUntil, run, call_of_error run']
    exact ⟨rfl, rfl⟩
  · rw [← unshown, Nat.zero_add, List.reverse_nil, List.nil_append] at run'
    rw [List.reverse_nil, List.nil_append] at run
    obtain ⟨body, called⟩ := call_of_ok run'
    rw [runUntil, run, called]
    exact ⟨_, rfl, rfl, rfl, rfl, alike.symm.trans (.noted _ ..), alike⟩

/-- A machine file that loads nothing and starts at an instruction that breaks. -/
def breaking : MachineFile := { start := some "$0200" }

/-- The break leads to address zero, where the next one leads back. So the machine halts with its second step,
also if it is the last one that it may take. -/
theorem call_runUntil_breaking : ∃ m report, ofFile .empty (.error "no screen") none breaking = .ok m ∧
    breaking.frames = none ∧ breaking.breakpoints.getD [] = [] ∧ (m.call ⟨2, true⟩).1 = .ok report ∧
    report.steps = 2 ∧ report.stop = .halted 0 := by
  have halts : (ofFile .empty (.error "no screen") none breaking).toOption.map (fun m =>
      match m.processor.runUntil .never 2 with
      | .ok lines _ => (lines.length, m.processor.standsAt? 2)
      | .error _ _ => (0, none)) = some (2, some 0) := by decide +kernel
  cases made : ofFile .empty (.error "no screen") none breaking with
  | error e =>
    rw [made] at halts
    cases halts
  | ok m =>
    rw [made] at halts
    have facts := Option.some.inj halts
    have agrees := call_runUntil made rfl rfl [] 2
    dsimp only [afterCalls] at agrees facts
    cases run : m.processor.runUntil .never 2 with
    | error e q =>
      rw [run] at facts
      cases facts
    | ok lines q =>
      rw [run] at agrees facts
      obtain ⟨length, stands⟩ := Prod.mk.inj facts
      obtain ⟨report, ok, -, steps, stop, -⟩ := agrees
      have two : report.steps = 2 := steps.trans length
      rw [two, stands] at stop
      exact ⟨m, report, rfl, rfl, rfl, ok, two, stop⟩

end Machine

end Atari
