import Atari.Proofs.Machine.Ready
import Atari.Proofs.Machine.Turn

/-!
# The interrupts of a machine

Scan lines ask for interrupts, and the machine enters the one that waits at the end of a turn. At a
breakpoint it does not look, and the interrupt waits until the next turn ends.

* `Turn.latched`: the interrupts that the scan lines of a turn ask for;
* `Turn.entered`: those that the machine enters at its end;
* `Turn.Delivers`, `Turn.Settles`: what a turn leaves behind, with **`Turn.Of.settles`**;
* `Machine.Built`: a machine before its first run;
* **`Machine.interrupts_entered`**: what becomes of the interrupts in several runs.
-/

namespace Atari

open Machine (display drawLine)

namespace Turn

/-- Whether the instruction of a turn jumped to itself, which makes the display draw a scan line. -/
def spins (t : Turn) : Bool := t.executed.pc = t.before.pc && !t.atBreakpoint

/-- The processor behind the scan lines of a turn. -/
def shown (t : Turn) : Processor := if t.spins then drawLine t.executed else t.executed

/-- The interrupts that the scan lines of a turn ask for. -/
def latched (t : Turn) : List InterruptSource :=
  t.before.board.askedByStores (t.before.fetch.writes t.before) ++
    if t.spins then t.executed.board.asked Board.spun else []

/-- The interrupts that are entered at the end of a turn. -/
def entered (t : Turn) : List InterruptSource :=
  if t.atBreakpoint then [] else t.shown.board.request?.toList

/-- The processor with a non maskable interrupt entered. -/
def interrupted (p : Processor) (source : InterruptSource) : Processor :=
  let name := p.name
  (p.onBoard (·.note .debug fun _ => name ++ ": " ++ source.name ++ " interrupt")).nonMaskableInterrupt

variable {frames : Option Nat} {t : Turn}

theorem entered_of_atBreakpoint (ends : t.atBreakpoint = true) : t.entered = [] := if_pos ends

theorem entered_of_not_atBreakpoint (goes : ¬t.atBreakpoint = true) :
    t.entered = t.shown.board.request?.toList := if_neg goes

theorem shown_of_atBreakpoint (ends : t.atBreakpoint = true) : t.shown = t.executed := by
  unfold shown spins
  rw [ends, Bool.not_true, Bool.and_false, if_neg Bool.false_ne_true]

theorem shown_pc (t : Turn) : t.shown.pc = t.executed.pc := by
  unfold shown
  split <;> rfl

theorem shown_breakpoints (t : Turn) : t.shown.breakpoints = t.executed.breakpoints := by
  unfold shown
  split <;> rfl

/-! ## The end of a turn -/

theorem deliver_eq (p : Processor) :
    Machine.deliver p = p.board.request?.toList.foldl interrupted (p.onBoard Board.emptied) := by
  unfold Machine.deliver Board.request?
  cases hr : (p.board.takeRequest display).1 with
  | none =>
    dsimp only
    rw [hr]
    rfl
  | some source =>
    dsimp only
    rw [hr]
    rfl

theorem attend_stop (n : Nat) (halted : Bool) (p : Processor) :
    (Machine.attend n halted p).1.any (·.isBreakpoint) = false := by
  unfold Machine.attend
  dsimp only
  by_cases drawn : n ≤ Machine.framesDrawn (Machine.deliver (if halted then drawLine p else p)).board
  · rw [if_pos drawn]
    rfl
  · rw [if_neg drawn]
    rfl

/-- How a turn ends: at a breakpoint, or with what the display makes of it. -/
theorem Of.cases (h : t.Of frames) :
    (∃ a, t.executed.board.stop = some a ∧ t.stop = some (.breakpoint a) ∧
      t.after = t.executed.onBoard fun b => { b with stop := none }) ∨
    (t.executed.board.stop = none ∧ t.atBreakpoint = false ∧
      t.after = if frames.isSome then Machine.deliver t.shown else t.executed) := by
  obtain ⟨before, l, executed, stop, after⟩ := t
  obtain ⟨hs, ht⟩ := h
  dsimp only at hs ht ⊢
  unfold Machine.turn at ht
  dsimp only at ht
  rw [hs] at ht
  dsimp only at ht
  split at ht
  · rename_i a found
    cases ht
    exact .inl ⟨a, found, rfl, rfl⟩
  · rename_i unstopped
    refine .inr ⟨unstopped, ?_⟩
    split at ht
    · cases ht
      refine ⟨?_, rfl⟩
      unfold atBreakpoint
      dsimp only
      split <;> rfl
    · rename_i n
      cases ht
      have apart : atBreakpoint ⟨before, l, executed,
          (Machine.attend n (executed.pc = before.pc) executed).1,
          (Machine.attend n (executed.pc = before.pc) executed).2⟩ = false := attend_stop ..
      refine ⟨apart, ?_⟩
      unfold shown spins
      rw [apart, Bool.not_false, Bool.and_true]
      rfl

/-- **A turn asks for one interrupt at most**, since an instruction that jumps to itself stores on the
stack alone. -/
theorem Of.latched_le (h : t.Of frames) (ready : t.before.Ready frames) : t.latched.length ≤ 1 := by
  obtain ⟨d?, wired, -⟩ := ready.board
  obtain ⟨r, a, -, he, stays⟩ := Processor.step_cases h.step
  have quiet (stack : ∀ w ∈ t.before.fetch.writes t.before, Processor.OnStack w.1) :
      t.before.board.askedByStores (t.before.fetch.writes t.before) = [] :=
    wired.askedByStores_eq_nil fun w hw => Processor.onStack_ne_wsync (stack w hw)
  unfold latched
  by_cases spins : t.spins = true
  · have same : t.executed.pc = t.before.pc := by
      unfold Turn.spins at spins
      exact of_decide_eq_true (Bool.and_eq_true_iff.mp spins).1
    have moved : t.executed.pc = a := by
      rw [he]
      exact Processor.setPc_pc r a
    rw [if_pos spins, quiet (stays (moved.symm.trans same)), List.nil_append]
    exact Board.length_asked_le ..
  · rw [if_neg spins, List.append_nil]
    obtain stack | ⟨w, single⟩ := t.before.fetch.writes_cases t.before
    · rw [quiet stack]
      exact Nat.zero_le 1
    · rw [single]
      show (t.before.board.asked _ ++ []).length ≤ 1
      rw [List.append_nil]
      exact Board.length_asked_le ..

theorem Of.shown_ready (h : t.Of frames) (ready : t.before.Ready frames) :
    t.shown.Ready frames ∧ t.shown.board.stop = t.executed.board.stop ∧
      t.shown.board.request? = t.latched.getLast?.or t.before.board.request? := by
  have comes := ready.step h.step
  obtain ⟨drawn, stop, request⟩ := comes.ready.drawLine
  unfold shown latched
  by_cases spins : t.spins = true
  · rw [if_pos spins, if_pos spins, List.getLast?_append, Option.or_assoc]
    exact ⟨drawn, stop, request.trans (by rw [comes.request])⟩
  · rw [if_neg spins, if_neg spins, List.append_nil]
    exact ⟨comes.ready, rfl, comes.request⟩

/-- What becomes of the interrupts of a turn: the last one that a scan line asked for, or else the one
that waited before, is entered at its end. At a breakpoint it waits instead. -/
structure Delivers (t : Turn) : Prop where
  latched_le : t.latched.length ≤ 1
  entered_eq : t.entered =
    if t.atBreakpoint then [] else (t.latched.getLast?.or t.before.board.request?).toList
  waiting_eq : t.after.board.request? =
    if t.atBreakpoint then t.latched.getLast?.or t.before.board.request? else none
  after_eq : t.after =
    if t.atBreakpoint then t.executed.onBoard fun b => { b with stop := none }
    else t.entered.foldl interrupted (t.shown.onBoard Board.emptied)

theorem interrupted_comes {p : Processor} (h : p.Ready frames) (source : InterruptSource) :
    Processor.Comes frames p (interrupted p source) p.board.request? := by
  have comes := (h.note .debug fun _ => p.name ++ ": " ++ source.name ++ " interrupt").nonMaskableInterrupt
  refine ⟨comes.ready, comes.breakpoints, comes.request.trans (h.request_note ..), ?_⟩
  refine comes.stop.trans ?_
  show (if _ ∈ p.stops then _ else (p.board.note _ _).stop) = _
  rw [Board.note_stop]
  rfl

theorem Of.after_eq (h : t.Of frames) (ready : t.before.Ready frames) : t.after =
    if t.atBreakpoint then t.executed.onBoard fun b => { b with stop := none }
    else t.entered.foldl interrupted (t.shown.onBoard Board.emptied) := by
  obtain ⟨a, -, stop, after⟩ | ⟨-, apart, after⟩ := h.cases
  · have stops : t.atBreakpoint = true := by
      unfold atBreakpoint
      rw [stop]
      rfl
    rw [if_pos stops, after]
  · have goes : ¬t.atBreakpoint = true := by
      rw [apart]
      exact Bool.false_ne_true
    rw [if_neg goes, after, entered_of_not_atBreakpoint goes, ← deliver_eq]
    by_cases hf : frames.isSome = true
    · rw [if_pos hf]
    · -- Without a display there is nothing to draw and nothing that waits.
      rw [if_neg hf, deliver_eq]
      obtain ⟨d?, wired, shown⟩ := (ready.step h.step).ready.board
      obtain rfl : d? = none := by
        rw [← Option.not_isSome_iff_eq_none, shown]
        exact hf
      have same : t.shown = t.executed := by
        unfold Turn.shown drawLine
        split
        · exact congrArg (fun b => { t.executed with board := b }) wired.spun_eq_self
        · rfl
      rw [same, wired.request_eq]
      exact (congrArg (fun b => { t.executed with board := b }) wired.emptied_eq_self).symm

theorem Of.atBreakpoint_eq (h : t.Of frames) : t.atBreakpoint = t.executed.board.stop.isSome := by
  obtain ⟨a, found, stop, -⟩ | ⟨unstopped, apart, -⟩ := h.cases
  · unfold Turn.atBreakpoint
    rw [stop, found]
    rfl
  · rw [apart, unstopped]
    rfl

/-- What a turn leaves behind. A request to stop comes from an interrupt that was entered at a
breakpoint. -/
structure Settles (frames : Option Nat) (t : Turn) : Prop where
  ready : t.after.Ready frames
  breakpoints : t.after.breakpoints = t.before.breakpoints
  request : t.after.board.request? =
    if t.atBreakpoint then t.latched.getLast?.or t.before.board.request? else none
  stop : t.after.board.stop =
    if t.entered ≠ [] ∧ t.after.pc ∈ t.before.stops then some t.after.pc else none
  pc : t.entered = [] → t.after.pc = t.executed.pc

theorem Of.settles_of_atBreakpoint (h : t.Of frames) (ready : t.before.Ready frames)
    (ends : t.atBreakpoint = true) : t.Settles frames := by
  have comes := ready.step h.step
  have after := h.after_eq ready
  rw [if_pos ends] at after
  obtain ⟨d?, wired, isShown⟩ := comes.ready.board
  have wired' : Board.Wired t.after.board d? := by
    rw [after]
    exact wired.of_eq rfl rfl
  refine ⟨⟨⟨d?, wired', isShown⟩, ?_⟩, ?_, ?_, ?_, fun _ => ?_⟩
  · rw [after]
    exact comes.ready.stopsOnly
  · rw [after]
    exact comes.breakpoints
  · rw [if_pos ends, wired'.request_eq, ← (h.shown_ready ready).2.2, shown_of_atBreakpoint ends,
      wired.request_eq]
  · rw [if_neg fun e => e.1 (entered_of_atBreakpoint ends), after]
    rfl
  · rw [after]
    rfl

theorem Of.settles_of_not_atBreakpoint (h : t.Of frames) (ready : t.before.Ready frames)
    (goes : ¬t.atBreakpoint = true) : t.Settles frames := by
  have comes := ready.step h.step
  have after := h.after_eq ready
  obtain ⟨shown, stop, -⟩ := h.shown_ready ready
  obtain ⟨empty, stop', request⟩ := shown.emptied
  have entered := entered_of_not_atBreakpoint goes
  have unstopped : (t.shown.onBoard Board.emptied).board.stop = none := by
    rw [h.atBreakpoint_eq] at goes
    rw [stop', stop, Option.not_isSome_iff_eq_none.mp goes]
  have breakpoints : (t.shown.onBoard Board.emptied).breakpoints = t.before.breakpoints :=
    (shown_breakpoints t).trans comes.breakpoints
  rw [if_neg goes, entered] at after
  cases waiting : t.shown.board.request? with
  | none =>
    rw [waiting] at after entered
    have after : t.after = t.shown.onBoard Board.emptied := after
    rw [← after] at empty request unstopped breakpoints
    refine ⟨empty, breakpoints, ?_, ?_, fun _ => ?_⟩
    · rw [if_neg goes, request]
    · rw [if_neg fun e => e.1 entered, unstopped]
    · rw [after]
      exact shown_pc t
  | some source =>
    rw [waiting] at after entered
    have interrupt := interrupted_comes empty source
    rw [← show t.after = interrupted (t.shown.onBoard Board.emptied) source from after] at interrupt
    have hne : t.entered ≠ [] := by
      rw [entered]
      exact List.cons_ne_nil _ _
    refine ⟨interrupt.ready, interrupt.breakpoints.trans breakpoints, ?_, ?_, fun e => absurd e hne⟩
    · rw [if_neg goes, interrupt.request, request]
    · rw [interrupt.stop, unstopped, Processor.stops, breakpoints]
      by_cases mem : t.after.pc ∈ t.before.stops
      · exact (if_pos mem).trans (if_pos ⟨hne, mem⟩).symm
      · exact (if_neg mem).trans (if_neg fun e => mem e.2).symm

/-- **What a turn leaves behind.** -/
theorem Of.settles (h : t.Of frames) (ready : t.before.Ready frames) : t.Settles frames := by
  by_cases ends : t.atBreakpoint = true
  · exact h.settles_of_atBreakpoint ready ends
  · exact h.settles_of_not_atBreakpoint ready ends

theorem Of.delivers (h : t.Of frames) (ready : t.before.Ready frames) : t.Delivers where
  latched_le := h.latched_le ready
  entered_eq := by
    unfold Turn.entered
    rw [(h.shown_ready ready).2.2]
  waiting_eq := (h.settles ready).request
  after_eq := h.after_eq ready

/-- What a turn enters and leaves waiting is among what waited before and what it asked for. -/
theorem Of.sublist (h : t.Of frames) (ready : t.before.Ready frames) :
    (t.entered ++ t.after.board.request?.toList).Sublist
      (t.before.board.request?.toList ++ t.latched) := by
  have last : ((t.latched.getLast?.or t.before.board.request?).toList).Sublist
      (t.before.board.request?.toList ++ t.latched) := by
    cases hl : t.latched.getLast? with
    | none => exact List.sublist_append_left ..
    | some source =>
      have mem : source ∈ t.latched := List.mem_of_getLast? hl
      exact (List.singleton_sublist.mpr mem).trans (List.sublist_append_right ..)
  have delivers := h.delivers ready
  rw [delivers.entered_eq, delivers.waiting_eq]
  by_cases ends : t.atBreakpoint = true
  · rw [if_pos ends, if_pos ends, List.nil_append]
    exact last
  · rw [if_neg ends, if_neg ends]
    show (_ ++ []).Sublist _
    rw [List.append_nil]
    exact last

end Turn

namespace Machine

variable {frames : Option Nat} {p q : Processor} {ts : List Turn}

/-- A machine before its first run. -/
structure Built (m : Machine) : Prop where
  ready : m.processor.Ready m.frames
  stop : m.processor.board.stop = none
  request : m.processor.board.request? = none

theorem Path.ready (path : Path frames p ts q) (h : p.Ready frames) :
    (∀ t ∈ ts, t.Of frames ∧ t.before.Ready frames) ∧ q.Ready frames :=
  path.invariant (·.Ready frames) (fun _ _ hp => hp.note ..) (fun _ _ of hp => (of.settles hp).ready) h

/-- **Interrupts are entered in the order in which they were asked for, and once at most.** -/
theorem Path.sublist (path : Path frames p ts q) (h : p.Ready frames) :
    (ts.flatMap (·.entered) ++ q.board.request?.toList).Sublist
      (p.board.request?.toList ++ ts.flatMap (·.latched)) := by
  induction path with
  | nil p => exact List.sublist_append_left _ _
  | @turn t ts q of _ ih =>
    rw [List.flatMap_cons, List.flatMap_cons, List.append_assoc]
    refine ((List.Sublist.refl t.entered).append (ih (of.settles h).ready)).trans ?_
    rw [← List.append_assoc, ← List.append_assoc]
    exact (of.sublist h).append (.refl _)
  | @note p q ts body _ ih =>
    have same : (p.onBoard (·.note .info body)).board.request? = p.board.request? := h.request_note ..
    rw [same] at ih
    exact ih (h.note ..)

/-- While no turn at a breakpoint asks for an interrupt, none waits between two turns. -/
theorem Path.waits_none (path : Path frames p ts q) (h : p.Ready frames) (idle : p.board.request? = none)
    (quiet : ∀ t ∈ ts.dropLast, t.atBreakpoint = true → t.latched = []) :
    ∀ t ∈ ts, t.before.board.request? = none := by
  induction path with
  | nil => exact fun _ ht => nomatch ht
  | @turn t ts q of path ih =>
    have settles := of.settles h
    intro u hu
    cases hu with
    | head => exact idle
    | tail _ hu =>
      rw [List.dropLast_cons_of_ne_nil (List.ne_nil_of_mem hu)] at quiet
      refine ih settles.ready ?_ (fun v hv => quiet v (List.mem_cons_of_mem _ hv)) u hu
      rw [settles.request]
      by_cases ends : t.atBreakpoint = true
      · rw [if_pos ends, quiet t List.mem_cons_self ends, idle]
        rfl
      · rw [if_neg ends]
  | @note p q ts body _ ih => exact ih (h.note ..) ((h.request_note ..).trans idle) quiet

theorem toList_getLast?_of_length_le {α : Type} {l : List α} (h : l.length ≤ 1) :
    l.getLast?.toList = l := by
  match l, h with
  | [], _ => rfl
  | [_], _ => rfl

/-- **What becomes of the interrupts of a machine**, in several runs from its start. Each turn enters the
one that waits at its end, unless it stops at a breakpoint. So none is entered without having been
asked for, and none twice. And every turn that another instruction follows enters exactly what it asked
for, as long as none of them stops at a breakpoint and asks for an interrupt, and no longer; the last
turn then enters what it asked for or leaves it waiting. -/
theorem interrupts_entered {m : Machine} (built : m.Built) (calls : List Call) :
    (∀ t ∈ m.history calls, t.Delivers) ∧
      ((m.history calls).flatMap (·.entered)).Sublist ((m.history calls).flatMap (·.latched)) ∧
      ((∀ t ∈ (m.history calls).dropLast, t.entered = t.latched) ∧
          (∀ t ∈ m.history calls, t.entered = t.latched ∨ t.entered = []) ↔
        ∀ t ∈ (m.history calls).dropLast, t.atBreakpoint = true → t.latched = []) := by
  obtain ⟨path, -⟩ := m.history_path calls
  obtain ⟨each, -⟩ := path.ready built.ready
  have delivers (t : Turn) (ht : t ∈ m.history calls) : t.Delivers := (each t ht).1.delivers (each t ht).2
  refine ⟨delivers, ?_, fun all t ht ends => ?_, fun quiet => ?_⟩
  · have ordered := path.sublist built.ready
    rw [built.request] at ordered
    exact (List.sublist_append_left ..).trans ordered
  · rw [← all.1 t ht, Turn.entered_of_atBreakpoint ends]
  · have entered (t : Turn) (ht : t ∈ m.history calls) (goes : ¬t.atBreakpoint = true) :
        t.entered = t.latched := by
      rw [(delivers t ht).entered_eq, if_neg goes,
        path.waits_none built.ready built.request quiet t ht, Option.or_none]
      exact toList_getLast?_of_length_le (delivers t ht).latched_le
    refine ⟨fun t ht => ?_, fun t ht => ?_⟩
    · by_cases ends : t.atBreakpoint = true
      · rw [Turn.entered_of_atBreakpoint ends, quiet t ht ends]
      · exact entered t (List.dropLast_subset _ ht) ends
    · by_cases ends : t.atBreakpoint = true
      · exact .inr (Turn.entered_of_atBreakpoint ends)
      · exact .inl (entered t ht ends)

/-- A machine with a breakpoint, whose first instruction draws a scan line. The scan line asks for an
interrupt, whose routine is at `0x0900`. -/
def sample (stop : Address) : Machine where
  processor :=
    { table := .ofList [⟨"STA", 0x8D, .absolute, .store .a⟩, ⟨"NOP", 0xEA, .implied, .nothing⟩,
        ⟨"INX", 0xE8, .implied, .increment .x⟩]
      registers := .initial 0x0600
      board :=
        { memory := program.foldl (fun m w => m.set w.1 w.2) .zero
          hooks := ⟨[(Control.wsync, .waitSync display)]⟩
          displays := #[some (.on (.recorder {}))] }
      breakpoints := ⟨[⟨⟨0⟩, { address := some stop }, .stop⟩], 1⟩ }
  frames := some 5
  maxSteps := 10
where
  /-- The program, its display list and the vector of its interrupt. -/
  program : List (Address × Byte) :=
    [(0x0600, 0x8D), (0x0601, 0x0A), (0x0602, 0xD4), (0x0603, 0xEA), (0x0604, 0xEA),
      (Control.dmactl, 0x22), (Control.dlisth, 0x07), (Control.nmien, 0x80), (0x0700, 0x8F),
      (0x0701, 0x41), (0x0703, 0x07), (0xFFFB, 0x09), (0x0900, 0xE8), (0x0901, 0xE8)]

theorem built_sample (stop : Address) : (sample stop).Built := by
  refine ⟨⟨⟨some (.on (.recorder {})), ⟨rfl, rfl⟩, rfl⟩, fun e he => ?_⟩, rfl, rfl⟩
  obtain rfl := List.mem_singleton.mp he
  exact ⟨rfl, stop, rfl⟩

/-- Behind the first instruction there is no breakpoint, and the interrupt is entered. -/
theorem interrupts_entered_sample :
    (sample 0x0604).Built ∧
      ∀ t ∈ ((sample 0x0604).history [⟨2, false⟩, ⟨1, true⟩]).dropLast, t.entered = t.latched :=
  ⟨built_sample 0x0604,
    ((interrupts_entered (built_sample 0x0604) [⟨2, false⟩, ⟨1, true⟩]).2.2.mpr (by decide +kernel)).1⟩

/-- Behind the first instruction there is a breakpoint. The interrupt that was asked for is not entered
before the next instruction, but behind it. -/
theorem interrupt_waits_at_breakpoint :
    (sample 0x0603).Built ∧
      ((sample 0x0603).history [⟨1, false⟩, ⟨1, false⟩]).map (fun t => (t.latched, t.entered)) =
        [([.displayList], []), ([], [.displayList])] ∧
      ¬∀ t ∈ ((sample 0x0603).history [⟨1, false⟩, ⟨1, false⟩]).dropLast, t.entered = t.latched :=
  ⟨built_sample 0x0603, by decide +kernel, by decide +kernel⟩

end Machine

end Atari
