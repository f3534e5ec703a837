import Atari.Proofs.Processor.Watched

/-!
# The flow of control

An instruction goes on behind itself or at an address of its own. The command pointer is written once in
a step, behind everything else, and that is where the breakpoints are looked at.

* `Decoded.destination?`: the address where an instruction goes on, if it does not go on behind itself;
* `Decoded.Goes`: what becomes of an instruction, whoever watches; **`Decoded.execute_goes`**;
* `Processor.nextPc`: the command pointer behind a step;
* **`Processor.step_watched`**: a step writes the command pointer once, and last.
-/

namespace Atari

/-! ## Instructions -/

namespace Decoded

open Processor Execution

/-- Where an instruction goes on, unless it goes on behind itself. -/
def destination? (d : Decoded) (p : Processor) : Option Address :=
  match d.instruction.operation with
  | .branch f v => if p.flag f = v then operandAddress? else none
  | .jump | .call => operandAddress?
  | .returnFromCall => some (p.pullAddress.1 + 1)
  | .softwareInterrupt => some (p.interruptTarget (d.address + 2) true interruptVector)
  | .returnFromInterrupt => some p.drop.pullAddress.1
  | _ => none
where
  /-- The location of the operand, if it has one. -/
  operandAddress? : Option Address := (d.mode.address p.registers p.memory d.operand).toOption

/-- What becomes of an instruction, whatever the breakpoints are and whatever was written down before:
it fails, or it leaves the command pointer alone, or it writes the command pointer last. -/
inductive Goes (x : Execution Flow) (p : Processor) : Option Address → Prop
  | fails {goal : Option Address} {e : Fault} :
      (∀ ks past, x (p.watched ks past) = .error e (p.watched ks past)) → Goes x p goal
  | next {r : Processor} : (∀ ks past, x (p.watched ks past) = .ok .next (r.watched ks past)) →
      Goes x p none
  | jumped {r : Processor} {a : Address} :
      (∀ ks past, x (p.watched ks past) = .ok .jumped ((r.watched ks past).setPc a)) →
      Goes x p (some a)

variable {d : Decoded} {p : Processor}

theorem alike_watched (p : Processor) (ks : Delegate Breakpoint Reaction) (past : Records) :
    p.Alike (p.watched ks past) := ⟨rfl, rfl, rfl, rfl⟩

theorem Goes.congr {x y : Execution Flow} {goal : Option Address} (h : Goes x p goal)
    (same : ∀ ks past, y (p.watched ks past) = x (p.watched ks past)) : Goes y p goal := by
  cases h with
  | fails h => exact .fails fun ks past => (same ks past).trans (h ks past)
  | next h => exact .next fun ks past => (same ks past).trans (h ks past)
  | jumped h => exact .jumped fun ks past => (same ks past).trans (h ks past)

theorem goes_bind {α : Type} {x : Execution α} (hx : Reads x) {f : α → Execution Flow}
    {goal : Option Address} (hf : ∀ v, x p = .ok v p → Goes (f v) p goal) : Goes (x >>= f) p goal := by
  obtain ⟨v, hp, -⟩ | ⟨e, hp, -⟩ := hx p p (.refl p)
  · have same (ks : Delegate Breakpoint Reaction) (past : Records) :
        x (p.watched ks past) = .ok v (p.watched ks past) := by
      obtain ⟨w, hw, hq⟩ | ⟨e, he, -⟩ := hx p _ (alike_watched p ks past)
      · cases hp.symm.trans hw
        exact hq
      · cases hp.symm.trans he
    cases hf v hp with
    | fails h => exact .fails fun ks past => (bind_of_ok (same ks past)).trans (h ks past)
    | next h => exact .next fun ks past => (bind_of_ok (same ks past)).trans (h ks past)
    | jumped h => exact .jumped fun ks past => (bind_of_ok (same ks past)).trans (h ks past)
  · refine .fails (e := e) fun ks past => bind_of_error ?_
    obtain ⟨w, hw, -⟩ | ⟨e', he, hq⟩ := hx p _ (alike_watched p ks past)
    · cases hp.symm.trans hw
    · cases hp.symm.trans he
      exact hq

theorem goes_proceed {change : Processor → Processor}
    (h : ∀ ks past, change (p.watched ks past) = (change p).watched ks past) :
    Goes (proceed change) p none :=
  .next fun ks past => congrArg (EStateM.Result.ok Flow.next) (h ks past)

theorem goes_value {change : Byte → Processor → Processor}
    (h : ∀ v ks past, change v (p.watched ks past) = (change v p).watched ks past) :
    Goes (d.value >>= fun v => proceed (change v)) p none :=
  goes_bind d.value_reads fun v _ => goes_proceed (h v)

theorem goes_target {change : Address → Processor → Processor}
    (h : ∀ a ks past, change a (p.watched ks past) = (change a p).watched ks past) :
    Goes (d.target >>= fun a => proceed (change a)) p none :=
  goes_bind d.target_reads fun a _ => goes_proceed (h a)

theorem goes_jump : Goes (d.target >>= goTo) p (destination?.operandAddress? d p) := by
  refine goes_bind d.target_reads fun a ha => ?_
  unfold destination?.operandAddress?
  rw [(target_ok ha).2]
  exact .jumped (r := p) fun _ _ => rfl

theorem goes_changeInPlace (c : Change) : Goes (d.changeInPlace c) p none := by
  unfold changeInPlace
  split
  · refine goes_proceed fun ks past => ?_
    dsimp only
    rw [shiftOut_watched]
    exact load_watched ..
  · refine goes_target fun a ks past => ?_
    dsimp only
    rw [shiftOut_watched, store_watched]
    rfl

theorem goes_branch (f : Flag) (v : Bool) :
    Goes (do if (← get).flag f = v then goTo (← d.target) else proceed id) p
      (if p.flag f = v then destination?.operandAddress? d p else none) := by
  by_cases taken : p.flag f = v
  · rw [if_pos taken]
    exact goes_jump.congr fun ks past => (d.branch_run f v _).trans (if_pos taken)
  · rw [if_neg taken]
    exact .next (r := p) fun ks past => (d.branch_run f v _).trans (if_neg taken)

/-- **Every instruction writes the command pointer last, if at all.** -/
theorem execute_goes (d : Decoded) (p : Processor) : Goes d.execute p (d.destination? p) := by
  unfold execute destination?
  -- The operations are grouped by what they read first and what they then do with it.
  cases hop : d.instruction.operation <;> dsimp only
  case load | logic => exact goes_value fun v ks past => load_watched ..
  case add => exact goes_value fun v ks past => add_watched ..
  case subtract => exact goes_value fun v ks past => subtract_watched ..
  case compare | bitTest => exact goes_value fun v ks past => rfl
  case store => exact goes_target fun a ks past => store_watched ..
  case change c => exact goes_changeInPlace c
  case transfer | loadStackPointer | increment | decrement =>
    exact goes_proceed fun ks past => load_watched ..
  case setStackPointer | setFlag => exact goes_proceed fun ks past => rfl
  case branch f v => exact goes_branch f v
  case jump => exact goes_jump
  case call =>
    refine goes_bind d.target_reads fun a ha => ?_
    unfold destination?.operandAddress?
    rw [(target_ok ha).2]
    exact .jumped fun ks past => congrArg (goTo a) (pushAddress_watched p ks past (d.address + 2))
  case returnFromCall => exact .jumped (r := p.pullAddress.2) fun ks past => rfl
  case softwareInterrupt =>
    obtain ⟨r, h⟩ := p.enterInterrupt_watched (d.address + 2) true interruptVector
    exact .jumped fun ks past => congrArg (EStateM.Result.ok Flow.jumped) (h ks past)
  case returnFromInterrupt =>
    exact .jumped (r := (p.drop.setStatus p.top).pullAddress.2) fun ks past => rfl
  case pushAccumulator | pushStatus => exact goes_proceed fun ks past => push_watched ..
  case pullAccumulator =>
    exact goes_proceed fun ks past => load_watched p.drop ks past .a p.top
  case pullStatus => exact goes_proceed fun ks past => rfl
  case nothing => exact goes_proceed fun ks past => rfl
  case undefined => exact .fails (e := .invalidInstruction _ _ p.name) fun ks past => rfl

end Decoded

/-! ## Steps -/

namespace Processor

open Decoded

def nextPc (p : Processor) : Address :=
  (p.fetch.destination? p).getD (p.pc + UInt16.ofNat (1 + p.fetch.mode.width))

theorem nextPc_watched (p : Processor) (ks : Delegate Breakpoint Reaction) (past : Records) :
    (p.watched ks past).nextPc = p.nextPc := by
  have same : p.fetch.destination? (p.watched ks past) = p.fetch.destination? p := by
    unfold destination?
    cases p.fetch.instruction.operation with
    | softwareInterrupt => exact congrArg some (interruptTarget_watched ..)
    | _ => rfl
  exact congrArg (·.getD (p.pc + UInt16.ofNat (1 + p.fetch.mode.width))) same

theorem step_of_ok {p q : Processor} {flow : Flow} (h : p.fetch.execute p = .ok flow q) :
    p.step = finish p.fetch flow q := by
  unfold step
  dsimp only
  rw [h]

theorem step_of_error {p q : Processor} {e : Fault} (h : p.fetch.execute p = .error e q) :
    p.step = .error e q := by
  unfold step
  dsimp only
  rw [h]

theorem finish_jumped (d : Decoded) (r : Processor) (a : Address) :
    finish d .jumped (r.setPc a) =
      .ok ⟨d, { r.registers with pc := a }⟩ ((r.setPc a).trace ⟨d, { r.registers with pc := a }⟩) := by
  unfold finish
  dsimp only
  rw [setPc_registers]

theorem finish_next (d : Decoded) (r : Processor) :
    finish d .next r = finish d .jumped (r.setPc (d.address + UInt16.ofNat (1 + d.mode.width))) := rfl

/-- **A step writes the command pointer once, and last**, whatever the breakpoints are and whatever was
written down before. A step that fails does not write it. -/
theorem step_watched (p : Processor) :
    (∃ e, ∀ ks past, (p.watched ks past).step = .error e (p.watched ks past)) ∨
      ∃ (l : LogLine) (r : Processor), l = ⟨p.fetch, { r.registers with pc := p.nextPc }⟩ ∧
        ∀ ks past, (p.watched ks past).step = .ok l (((r.watched ks past).setPc p.nextPc).trace l) := by
  have goes := execute_goes p.fetch p
  unfold nextPc
  revert goes
  generalize p.fetch.destination? p = goal
  intro goes
  -- The instruction is fetched in the same way whoever watches.
  have fetched (ks : Delegate Breakpoint Reaction) (past : Records) :
      (p.watched ks past).fetch = p.fetch := rfl
  cases goes with
  | @fails _ e h => exact .inl ⟨e, fun ks past => step_of_error (h ks past)⟩
  | @next r h =>
    refine .inr ⟨_, r, rfl, fun ks past => ?_⟩
    rw [step_of_ok (h ks past), fetched, finish_next, finish_jumped]
    rfl
  | @jumped r a h =>
    refine .inr ⟨_, r, rfl, fun ks past => ?_⟩
    rw [step_of_ok (h ks past), fetched, finish_jumped]
    rfl

end Processor

end Atari
