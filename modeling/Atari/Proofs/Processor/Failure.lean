import Atari.Processor.Step

/-!
# Steps that fail

An instruction resolves its operand before it changes anything, and resolving reads registers and
memory alone. So a step that fails has changed nothing and has called nobody.

* `Processor.Alike`: processors that differ in their hooks and watchers alone;
* `Execution.Reads`, `Execution.Succeeds`, `Execution.FailsFirst`: what parts of a step can do;
* **`Processor.step_error`**: a step that fails leaves everything as it was.
-/

namespace Atari

/-- Processors that agree in what an instruction reads. They may differ in their hooks, in the
observers of their registers, in their breakpoints and in their records. -/
structure Processor.Alike (p q : Processor) : Prop where
  name : q.name = p.name
  table : q.table = p.table
  registers : q.registers = p.registers
  memory : q.memory = p.memory

/-! ## Parts of a step -/

namespace Execution

variable {α β : Type}

/-- A computation that changes nothing and gives the same result for processors that are alike. -/
def Reads (x : Execution α) : Prop :=
  ∀ p q : Processor, p.Alike q →
    (∃ v, x p = .ok v p ∧ x q = .ok v q) ∨ (∃ e, x p = .error e p ∧ x q = .error e q)

/-- A computation that never fails. -/
def Succeeds (x : Execution α) : Prop := ∀ p : Processor, ∃ v p', x p = .ok v p'

/-- A computation that, when it fails, has changed nothing, and fails for all processors that are
alike. -/
def FailsFirst (x : Execution α) : Prop :=
  ∀ (p q p' : Processor) (e : Fault), p.Alike q → x p = .error e p' → p' = p ∧ x q = .error e q

theorem Succeeds.failsFirst {x : Execution α} (h : Succeeds x) : FailsFirst x := by
  intro p q p' e _ he
  obtain ⟨v, r, hv⟩ := h p
  rw [hv] at he
  cases he

theorem bind_of_ok {x : Execution α} {f : α → Execution β} {p q : Processor} {v : α}
    (h : x p = .ok v q) : (x >>= f) p = f v q := by
  show EStateM.bind x f p = f v q
  rw [EStateM.bind, h]

theorem bind_of_error {x : Execution α} {f : α → Execution β} {p q : Processor} {e : Fault}
    (h : x p = .error e q) : (x >>= f) p = .error e q := by
  show EStateM.bind x f p = .error e q
  rw [EStateM.bind, h]

theorem bind_ok {x : Execution α} {f : α → Execution β} {p r : Processor} {w : β}
    (h : (x >>= f) p = .ok w r) : ∃ v q, x p = .ok v q ∧ f v q = .ok w r := by
  cases hx : x p with
  | ok v q =>
    rw [bind_of_ok hx] at h
    exact ⟨v, q, rfl, h⟩
  | error e q =>
    rw [bind_of_error hx] at h
    cases h

/-- **What reads first and then succeeds can fail at its start only.** -/
theorem Reads.bind {x : Execution α} (hx : Reads x) {f : α → Execution β}
    (hf : ∀ v, Succeeds (f v)) : FailsFirst (x >>= f) := by
  intro p q p' e alike he
  obtain ⟨v, hp, -⟩ | ⟨e', hp, hq⟩ := hx p q alike
  · obtain ⟨w, r, hw⟩ := hf v p
    rw [bind_of_ok hp, hw] at he
    cases he
  · rw [bind_of_error hp] at he
    cases he
    exact ⟨rfl, bind_of_error hq⟩

end Execution

namespace Decoded

open Execution

variable (d : Decoded)

theorem value_reads : Reads d.value := by
  intro p q alike
  unfold value
  rw [alike.registers, alike.memory]
  cases d.mode.value p.registers p.memory d.operand with
  | ok v => exact .inl ⟨v, rfl, rfl⟩
  | error e => exact .inr ⟨_, rfl, rfl⟩

theorem target_reads : Reads d.target := by
  intro p q alike
  unfold target
  rw [alike.registers, alike.memory]
  cases d.mode.address p.registers p.memory d.operand with
  | ok a => exact .inl ⟨a, rfl, rfl⟩
  | error e => exact .inr ⟨_, rfl, rfl⟩

theorem proceed_succeeds (change : Processor → Processor) : Succeeds (proceed change) :=
  fun p => ⟨.next, change p, rfl⟩

theorem goTo_succeeds (a : Address) : Succeeds (goTo a) := fun p => ⟨.jumped, p.setPc a, rfl⟩

theorem changeInPlace_failsFirst (c : Change) : FailsFirst (d.changeInPlace c) := by
  unfold changeInPlace
  split
  · exact (proceed_succeeds _).failsFirst
  · exact d.target_reads.bind fun a => proceed_succeeds _

theorem branch_run (f : Flag) (v : Bool) (p : Processor) :
    (do if (← get).flag f = v then goTo (← d.target) else proceed id : Execution Flow) p =
      if p.flag f = v then (d.target >>= goTo) p else proceed id p := by
  show (if p.flag f = v then d.target >>= goTo else proceed id : Execution Flow) p = _
  by_cases taken : p.flag f = v
  · rw [if_pos taken, if_pos taken]
  · rw [if_neg taken, if_neg taken]

theorem branch_failsFirst (f : Flag) (v : Bool) :
    FailsFirst (do if (← get).flag f = v then goTo (← d.target) else proceed id) := by
  intro p q p' e alike he
  have same : q.flag f = p.flag f := by rw [Processor.flag, Processor.flag, alike.registers]
  rw [branch_run] at he ⊢
  rw [same]
  by_cases taken : p.flag f = v
  · rw [if_pos taken] at he ⊢
    exact d.target_reads.bind goTo_succeeds p q p' e alike he
  · rw [if_neg taken] at he
    cases he

/-- **An instruction fails before it does anything else.** -/
theorem execute_failsFirst : FailsFirst d.execute := by
  unfold execute
  cases d.instruction.operation with
  | load r | logic f | add | subtract | compare r | bitTest =>
    exact d.value_reads.bind fun v => proceed_succeeds _
  | store r => exact d.target_reads.bind fun a => proceed_succeeds _
  | change c => exact d.changeInPlace_failsFirst c
  | branch f v => exact d.branch_failsFirst f v
  | jump => exact d.target_reads.bind goTo_succeeds
  | call => exact d.target_reads.bind fun a p => goTo_succeeds a _
  | returnFromCall | returnFromInterrupt =>
    exact Succeeds.failsFirst fun p => goTo_succeeds _ _
  | softwareInterrupt => exact Succeeds.failsFirst fun p => ⟨_, _, rfl⟩
  | transfer _ _ | loadStackPointer | setStackPointer | increment _ | decrement _ | setFlag _ _
  | pushAccumulator | pullAccumulator | pushStatus | pullStatus | nothing =>
    exact (proceed_succeeds _).failsFirst
  | undefined =>
    intro p q p' e alike he
    cases he
    refine ⟨rfl, ?_⟩
    dsimp only
    rw [alike.name]

end Decoded

/-! ## Steps -/

namespace Processor

open Execution

variable {p q : Processor}

theorem Alike.refl (p : Processor) : p.Alike p := ⟨rfl, rfl, rfl, rfl⟩

theorem Alike.fetch_eq (h : p.Alike q) : q.fetch = p.fetch := by
  unfold fetch pc
  rw [h.registers, h.memory, h.table]

theorem finish_succeeds (d : Decoded) (flow : Flow) : Succeeds (finish d flow) := by
  intro p
  cases flow with
  | next => exact ⟨_, _, rfl⟩
  | jumped => exact ⟨_, _, rfl⟩

theorem step_failsFirst : FailsFirst step := by
  intro p q p' e alike h
  unfold step at h ⊢
  rw [alike.fetch_eq]
  dsimp only at h ⊢
  cases hx : p.fetch.execute p with
  | ok flow r =>
    obtain ⟨l, s, hf⟩ := finish_succeeds p.fetch flow r
    rw [hx] at h
    dsimp only at h
    rw [hf] at h
    cases h
  | error e' r =>
    rw [hx] at h
    cases h
    obtain ⟨rfl, hq⟩ := p.fetch.execute_failsFirst p q p' e alike hx
    rw [hq]
    exact ⟨rfl, rfl⟩

theorem eq_of_step_error {p' : Processor} {e : Fault} (h : p.step = .error e p') : p' = p :=
  (step_failsFirst p p p' e (.refl p) h).1

/-- **A step that fails leaves everything as it was**: the registers, memory with its hooks, and all
records. It has called no observer, no breakpoint and no hook, since it fails in the same way, and
leaves no record, whichever of them there are. -/
theorem step_error {p' : Processor} {e : Fault} (h : p.step = .error e p') :
    p' = p ∧ ∀ q, p.Alike q → q.step = .error e q :=
  ⟨(step_failsFirst p p p' e (.refl p) h).1, fun q alike => (step_failsFirst p q p' e alike h).2⟩

/-- A processor that stands before a load without an operand. -/
def impliedLoad : Processor := { table := .ofList [⟨"LDA", 0x00, .implied, .load .a⟩] }

/-- The load fails, also when the accumulator is watched. -/
theorem step_error_impliedLoad :
    impliedLoad.step = .error (.resolution (.noValue .implied)) impliedLoad ∧
      (impliedLoad.observe .a "A").2.step =
        .error (.resolution (.noValue .implied)) (impliedLoad.observe .a "A").2 := by
  have failed : impliedLoad.step = .error (.resolution (.noValue .implied)) impliedLoad := rfl
  exact ⟨failed, (step_error failed).2 _ ⟨rfl, rfl, rfl, rfl⟩⟩

end Processor

end Atari
