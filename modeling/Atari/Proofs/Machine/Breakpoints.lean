import Atari.Proofs.Machine.Interrupts

/-!
# The breakpoints of a machine

A run stops at a breakpoint when the request to stop is found, which is looked for behind each
instruction. An interrupt that is entered at a breakpoint leaves such a request for later.

* `Turn.asks`: the request to stop that a turn leaves;
* **`Machine.Path.stop_eq`**: where a request to stop comes from;
* `Machine.KeepsWord`: what a run should do about breakpoints; `Machine.Undisturbed`: when it does;
* **`Machine.breakpoints_stop`**: what runs do about breakpoints.
-/

namespace Atari

namespace Turn

variable {frames : Option Nat} {t : Turn}

/-- A turn enters an interrupt at a breakpoint. -/
def HitByInterrupt (t : Turn) : Prop := t.entered ≠ [] ∧ t.after.pc ∈ t.before.stops

instance (t : Turn) : Decidable t.HitByInterrupt := by
  unfold HitByInterrupt
  infer_instance

/-- The request to stop that a turn leaves. -/
def asks (t : Turn) : Option Address := if t.HitByInterrupt then some t.after.pc else none

/-- **A turn stops at a breakpoint** when its instruction led there, or else when a request to stop was
left before it. -/
theorem Of.stop_iff (h : t.Of frames) (ready : t.before.Ready frames) {a : Address} :
    t.stop = some (.breakpoint a) ↔
      (if t.executed.pc ∈ t.before.stops then some t.executed.pc else t.before.board.stop) = some a := by
  rw [← (ready.step h.step).stop]
  obtain ⟨b, found, stop, -⟩ | ⟨unstopped, apart, -⟩ := h.cases
  · rw [found, stop]
    constructor
    · intro e
      cases e
      rfl
    · intro e
      cases e
      rfl
  · rw [unstopped]
    constructor
    · intro e
      unfold atBreakpoint at apart
      rw [e] at apart
      cases apart
    · intro e
      cases e

end Turn

namespace Machine

variable {frames : Option Nat} {p q : Processor} {t : Turn} {ts us vs : List Turn}

theorem Path.stops_eq (path : Path frames p ts q) (h : p.Ready frames) :
    (∀ t ∈ ts, t.before.stops = p.stops) ∧ q.stops = p.stops := by
  obtain ⟨each, -, last⟩ := path.invariant (fun r => r.Ready frames ∧ r.stops = p.stops)
    (fun r body hr => ⟨hr.1.note .., hr.2⟩) (fun t _ of hr => by
      have settles := of.settles hr.1
      refine ⟨settles.ready, ?_⟩
      rw [Processor.stops, settles.breakpoints]
      exact hr.2) ⟨h, rfl⟩
  exact ⟨fun t ht => (each t ht).2.2, last⟩

/-- **A request to stop is left by the turn just before.** -/
theorem Path.stop_eq (path : Path frames p ts q) (h : p.Ready frames) :
    q.board.stop = (ts.getLast?.map (·.asks)).getD p.board.stop := by
  induction path with
  | nil => rfl
  | @turn t ts q of path ih =>
    have settles := of.settles h
    rw [ih settles.ready, List.getLast?_cons]
    cases ts.getLast? with
    | none => exact settles.stop
    | some u => rfl
  | @note p q ts body path ih =>
    rw [ih (h.note ..)]
    show (ts.getLast?.map (·.asks)).getD (p.board.note .info body).stop = _
    rw [Board.note_stop]

theorem Row.split (row : Row frames p (us ++ t :: vs) q) :
    Path frames p us t.before ∧ t.Of frames ∧
      ((∃ s, t.stop = some s ∧ vs = [] ∧ q = t.after) ∨ (t.stop = none ∧ Row frames t.after vs q)) := by
  induction us generalizing p with
  | nil =>
    cases row with
    | stop of stop => exact ⟨.nil _, of, .inl ⟨_, stop, rfl, rfl⟩⟩
    | cons of none row => exact ⟨.nil _, of, .inr ⟨none, row⟩⟩
  | cons u us ih =>
    rw [List.cons_append] at row
    generalize hw : us ++ t :: vs = ws at row
    cases row with
    | stop => exact absurd hw (List.append_ne_nil_of_right_ne_nil _ (List.cons_ne_nil _ _))
    | cons of none row =>
      rw [← hw] at row
      obtain ⟨path, rest⟩ := ih row
      exact ⟨.turn of path, rest⟩

/-- The run of a machine keeps its word about breakpoints: it stops at one only where an instruction
has just led there, and it goes on neither behind such an instruction nor behind an interrupt that was
entered at a breakpoint. -/
structure KeepsWord (m : Machine) (c : Call) : Prop where
  stopped : ∀ report a, (m.call c).1 = .ok report → report.stop = .breakpoint a →
    a ∈ m.processor.stops ∧ (m.call c).2.processor.pc = a ∧
      ∃ us t, m.turnsOf c = us ++ [t] ∧ t.executed.pc = a
  reached : ∀ us t vs, m.turnsOf c = us ++ t :: vs →
    (t.executed.pc ∈ m.processor.stops ∨ t.after.pc ∈ m.processor.stops) →
      vs = [] ∧ ∃ report, (m.call c).1 = .ok report

/-- How a run ends: behind its last turn, with the stop of that turn if it has one. -/
theorem call_ends (m : Machine) (c : Call) :
    ∃ q, Row m.frames m.processor (m.turnsOf c) q ∧ (m.call c).2.processor.pc = q.pc ∧
      ((∃ report, (m.call c).1 = .ok report ∧
          report.stop = ((m.turnsOf c).getLast?.bind (·.stop)).getD (.stepLimit c.maxSteps)) ∨
        (∃ e, (m.call c).1 = .error e ∧ (m.turnsOf c).getLast?.bind (·.stop) = none)) := by
  obtain ⟨q, row, ⟨report, body, run, -, -, stop, -⟩ | ⟨e, run, -, unstopped⟩⟩ :=
    ({ m with maxSteps := c.maxSteps } : Machine).run_cases c.trace
  · refine ⟨q, row, ?_, .inl ⟨report, ?_, stop⟩⟩
    · rw [call, run]
      rfl
    · rw [call, run]
  · refine ⟨q, row, ?_, .inr ⟨e, ?_, unstopped⟩⟩
    · rw [call, run]
    · rw [call, run]

theorem turn_stops {m : Machine} {c : Call} {s : Stop} (h : m.turnsOf c = us ++ t :: vs)
    (stop : t.stop = some s) :
    vs = [] ∧ ∃ report, (m.call c).1 = .ok report ∧ report.stop = s ∧
      (m.call c).2.processor.pc = t.after.pc := by
  obtain ⟨q, row, pc, outcome⟩ := m.call_ends c
  rw [h] at row outcome
  obtain ⟨-, -, ⟨_, _, rfl, rfl⟩ | ⟨unstopped, _⟩⟩ := row.split
  · have last : (us ++ [t]).getLast?.bind (·.stop) = some s := by
      rw [List.getLast?_append]
      exact stop
    rw [last] at outcome
    obtain ⟨report, ok, reported⟩ | ⟨_, _, unstopped⟩ := outcome
    · exact ⟨rfl, report, ok, reported, pc⟩
    · cases unstopped
  · rw [stop] at unstopped
    cases unstopped

section Runs

variable {m : Machine} {calls : List Call} {c : Call}

/-- Where a turn of a run begins, when other runs came before. -/
structure Begins (m : Machine) (before : List Turn) (t : Turn) : Prop where
  of : t.Of m.frames
  ready : t.before.Ready m.frames
  stops : t.before.stops = m.processor.stops
  stop : t.before.board.stop = before.getLast?.bind (·.asks)
  earlier : ∀ u ∈ before, u.before.stops = m.processor.stops

theorem begins (built : m.Built) (h : (m.afterCalls calls).turnsOf c = us ++ t :: vs) :
    Begins m (m.history calls ++ us) t := by
  obtain ⟨path, frames⟩ := m.history_path calls
  obtain ⟨q, row, -⟩ := (m.afterCalls calls).call_ends c
  rw [h, frames] at row
  obtain ⟨path', of, -⟩ := row.split
  have path := path.append path'
  obtain ⟨earlier, stops⟩ := path.stops_eq built.ready
  refine ⟨of, (path.ready built.ready).2, stops, ?_, earlier⟩
  rw [path.stop_eq built.ready, built.stop]
  cases (m.history calls ++ us).getLast? <;> rfl

theorem stops_afterCalls (built : m.Built) : (m.afterCalls calls).processor.stops = m.processor.stops :=
  ((m.history_path calls).1.stops_eq built.ready).2

/-- The last turn of a run that stops at a breakpoint. -/
theorem last_of_breakpoint {m : Machine} {report : Report} {a : Address}
    (ok : (m.call c).1 = .ok report) (stop : report.stop = .breakpoint a) :
    ∃ us t, m.turnsOf c = us ++ [t] ∧ t.stop = some (.breakpoint a) := by
  obtain ⟨q, -, -, ⟨report', ok', reported⟩ | ⟨e, error, -⟩⟩ := m.call_ends c
  · cases ok.symm.trans ok'
    rw [stop] at reported
    cases hl : (m.turnsOf c).getLast? with
    | none =>
      rw [hl] at reported
      cases reported
    | some t =>
      obtain ⟨us, split⟩ := List.getLast?_eq_some_iff.mp hl
      refine ⟨us, t, split, ?_⟩
      rw [hl] at reported
      cases ht : t.stop with
      | none =>
        rw [Option.bind_some, ht] at reported
        cases reported
      | some s =>
        rw [Option.bind_some, ht] at reported
        exact congrArg some reported.symm
  · cases ok.symm.trans error

/-- **An instruction that leads to a breakpoint ends the run there.** -/
theorem executed_stops (built : m.Built) (h : (m.afterCalls calls).turnsOf c = us ++ t :: vs)
    (mem : t.executed.pc ∈ m.processor.stops) :
    vs = [] ∧ ∃ report, ((m.afterCalls calls).call c).1 = .ok report ∧
      report.stop = .breakpoint t.executed.pc ∧
      ((m.afterCalls calls).call c).2.processor.pc = t.executed.pc := by
  have begins := begins built h
  have stop : t.stop = some (.breakpoint t.executed.pc) := by
    rw [begins.of.stop_iff begins.ready, begins.stops, if_pos mem]
  have ends : t.atBreakpoint = true := by
    unfold Turn.atBreakpoint
    rw [stop]
    rfl
  obtain ⟨last, report, ok, reported, pc⟩ := turn_stops h stop
  exact ⟨last, report, ok, reported, pc.trans ((begins.of.settles begins.ready).pc (Turn.entered_of_atBreakpoint ends))⟩

/-- **A run stops at configured addresses only.** Where its last instruction did not lead to one, an
interrupt had been entered there before the instruction. -/
theorem stopped_cases (built : m.Built) {report : Report} {a : Address}
    (ok : ((m.afterCalls calls).call c).1 = .ok report) (stop : report.stop = .breakpoint a) :
    a ∈ m.processor.stops ∧ ∃ us t, (m.afterCalls calls).turnsOf c = us ++ [t] ∧
      (t.executed.pc = a ∨ t.executed.pc ∉ m.processor.stops ∧
        ∃ u, (m.history calls ++ us).getLast? = some u ∧ u.HitByInterrupt) := by
  obtain ⟨us, t, split, ht⟩ := last_of_breakpoint ok stop
  have begins := begins built split
  rw [begins.of.stop_iff begins.ready, begins.stops] at ht
  by_cases mem : t.executed.pc ∈ m.processor.stops
  · rw [if_pos mem] at ht
    cases ht
    exact ⟨mem, us, t, split, .inl rfl⟩
  · rw [if_neg mem, begins.stop] at ht
    obtain ⟨u, last, asks⟩ := Option.bind_eq_some_iff.mp ht
    unfold Turn.asks at asks
    by_cases hit : u.HitByInterrupt
    · rw [if_pos hit] at asks
      cases asks
      refine ⟨?_, us, t, split, .inr ⟨mem, u, last, hit⟩⟩
      rw [← begins.earlier u (List.mem_of_getLast? last)]
      exact hit.2
    · rw [if_neg hit] at asks
      cases asks

/-- No instruction follows an interrupt that was entered at a breakpoint: none in the run itself, and its
first one behind an earlier run only if it leads to a breakpoint, too. -/
structure Undisturbed (m : Machine) (calls : List Call) (c : Call) : Prop where
  within : ∀ us t vs, (m.afterCalls calls).turnsOf c = us ++ t :: vs → t.HitByInterrupt →
    vs = [] ∧ ∃ report, ((m.afterCalls calls).call c).1 = .ok report
  behind : ∀ u t vs, (m.history calls).getLast? = some u → u.HitByInterrupt →
    (m.afterCalls calls).turnsOf c = t :: vs → t.executed.pc ∈ m.processor.stops

theorem KeepsWord.undisturbed (built : m.Built) (word : (m.afterCalls calls).KeepsWord c) :
    m.Undisturbed calls c where
  within us t vs h hit := by
    refine word.reached us t vs h (.inr ?_)
    rw [stops_afterCalls built, ← (begins built h).stops]
    exact hit.2
  behind u t vs last hit h := by
    refine Classical.byContradiction fun mem => ?_
    -- The request that the interrupt left makes the first turn stop, which led somewhere else.
    have h : (m.afterCalls calls).turnsOf c = [] ++ t :: vs := h
    have begins := begins built h
    rw [List.append_nil] at begins
    have stop : t.stop = some (.breakpoint u.after.pc) := by
      rw [begins.of.stop_iff begins.ready, begins.stops, if_neg mem, begins.stop, last]
      exact if_pos hit
    obtain ⟨rfl, report, ok, reported, -⟩ := turn_stops h stop
    obtain ⟨config, -, us, v, split, led⟩ := word.stopped report u.after.pc ok reported
    rw [stops_afterCalls built] at config
    have same : t = v := by
      have singles : ([] : List Turn) ++ [t] = us ++ [v] := h.symm.trans split
      exact (List.append_inj' singles rfl).2 |> List.singleton_inj.mp
    rw [← same] at led
    rw [led] at mem
    exact mem config

theorem Undisturbed.keepsWord (built : m.Built) (apart : m.Undisturbed calls c) :
    (m.afterCalls calls).KeepsWord c where
  stopped report a ok stop := by
    obtain ⟨config, us, t, split, led | ⟨mem, u, last, hit⟩⟩ := stopped_cases built ok stop
    · rw [← led] at config ⊢
      obtain ⟨-, -, -, -, pc⟩ := executed_stops built split config
      rw [stops_afterCalls built]
      exact ⟨config, pc, us, t, split, rfl⟩
    · exfalso
      obtain rfl | ⟨us, v, rfl⟩ := List.eq_nil_or_concat us
      · rw [List.append_nil] at last
        exact mem (apart.behind u t [] last hit split)
      · rw [List.concat_eq_append, ← List.append_assoc, List.getLast?_append] at last
        cases last
        rw [List.concat_eq_append, List.append_assoc] at split
        exact absurd (apart.within us v [t] split hit).1 (List.cons_ne_nil _ _)
  reached us t vs h reached := by
    rw [stops_afterCalls built] at reached
    by_cases mem : t.executed.pc ∈ m.processor.stops
    · obtain ⟨last, report, ok, -⟩ := executed_stops built h mem
      exact ⟨last, report, ok⟩
    · have begins := begins built h
      obtain led | interrupted := reached
      · exact absurd led mem
      · refine apart.within us t vs h ⟨fun idle => mem ?_, ?_⟩
        · rw [← (begins.of.settles begins.ready).pc idle]
          exact interrupted
        · rw [begins.stops]
          exact interrupted

/-- **When a run keeps its word about breakpoints**, after other runs from the start of the machine. A
run stops at configured addresses only, and every instruction that leads to one ends it there. The rest
of its word it keeps exactly if no instruction follows an interrupt that was entered at a breakpoint. -/
theorem breakpoints_stop (built : m.Built) (calls : List Call) (c : Call) :
    (∀ report a, ((m.afterCalls calls).call c).1 = .ok report → report.stop = .breakpoint a →
      a ∈ m.processor.stops) ∧
    (∀ us t vs, (m.afterCalls calls).turnsOf c = us ++ t :: vs → t.executed.pc ∈ m.processor.stops →
      vs = [] ∧ ∃ report, ((m.afterCalls calls).call c).1 = .ok report ∧
        report.stop = .breakpoint t.executed.pc ∧
        ((m.afterCalls calls).call c).2.processor.pc = t.executed.pc) ∧
    ((m.afterCalls calls).KeepsWord c ↔ m.Undisturbed calls c) :=
  ⟨fun _ _ ok stop => (stopped_cases built ok stop).1, fun _ _ _ h mem => executed_stops built h mem,
    fun word => word.undisturbed built, fun apart => apart.keepsWord built⟩

end Runs

/-- A breakpoint behind the first instruction ends the run there. -/
theorem breakpoints_stop_sample :
    (sample 0x0603).Built ∧ (((sample 0x0603).afterCalls []).KeepsWord ⟨5, false⟩ ↔
      (sample 0x0603).Undisturbed [] ⟨5, false⟩) :=
  ⟨built_sample 0x0603, (breakpoints_stop (built_sample 0x0603) [] ⟨5, false⟩).2.2⟩

/-- A breakpoint at the routine of the interrupt ends the run behind the first instruction of the
routine. -/
theorem interrupt_passes_breakpoint :
    (sample 0x0900).Built ∧
      ((sample 0x0900).call ⟨5, false⟩).1.toOption.map (·.stop) = some (.breakpoint 0x0900) ∧
      ((sample 0x0900).call ⟨5, false⟩).2.processor.pc = 0x0901 ∧
      ¬(sample 0x0900).KeepsWord ⟨5, false⟩ := by
  have stop : ((sample 0x0900).call ⟨5, false⟩).1.toOption.map (·.stop) =
      some (.breakpoint 0x0900) := by decide +kernel
  have pc : ((sample 0x0900).call ⟨5, false⟩).2.processor.pc = 0x0901 := by decide +kernel
  refine ⟨built_sample 0x0900, stop, pc, fun word => ?_⟩
  cases ok : ((sample 0x0900).call ⟨5, false⟩).1 with
  | ok report =>
    rw [ok] at stop
    have stays := (word.stopped report 0x0900 ok (Option.some.inj stop)).2.1
    rw [pc] at stays
    exact absurd stays (by decide)
  | error e =>
    rw [ok] at stop
    cases stop

end Machine

end Atari
