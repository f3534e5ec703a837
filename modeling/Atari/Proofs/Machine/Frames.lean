import Atari.Proofs.Machine.Breakpoints
import Atari.Proofs.Machine.Built
import Atari.Proofs.Machine.ScanLines

/-!
# The frames of a machine

A turn draws one scan line at most, so it counts one frame at most, and the machine looks at the count
behind each turn. Only behind a breakpoint it does not look.

* `Machine.outcomes`: what several runs come to;
* **`Machine.scanLines_requested`**: the scan lines and the frames of several runs.
-/

namespace Atari

open Machine (framesDrawn)

namespace Turn

variable {t : Turn} {n : Nat}

theorem attend_cases (n : Nat) (halted : Bool) (p : Processor) :
    ((Machine.attend n halted p).1 = none ∧ framesDrawn (Machine.attend n halted p).2.board < n) ∨
    ((Machine.attend n halted p).1 =
        some (.framesRendered (framesDrawn (Machine.attend n halted p).2.board)) ∧
      n ≤ framesDrawn (Machine.attend n halted p).2.board) := by
  unfold Machine.attend
  dsimp only
  by_cases enough : n ≤ framesDrawn (Machine.deliver (if halted then Machine.drawLine p else p)).board
  · rw [if_pos enough]
    exact .inr ⟨rfl, enough⟩
  · rw [if_neg enough]
    exact .inl ⟨rfl, Nat.lt_of_not_le enough⟩

/-- **A turn stops at the frames** when enough of them were drawn, and at nothing else but a breakpoint. -/
theorem Of.drawn_cases (h : t.Of (some n)) :
    (∃ a, t.stop = some (.breakpoint a)) ∨
    (t.stop = none ∧ framesDrawn t.after.board < n) ∨
    (t.stop = some (.framesRendered (framesDrawn t.after.board)) ∧ n ≤ framesDrawn t.after.board) := by
  obtain ⟨before, l, executed, stop, after⟩ := t
  obtain ⟨hs, ht⟩ := h
  dsimp only at hs ht ⊢
  unfold Machine.turn at ht
  dsimp only at ht
  rw [hs] at ht
  dsimp only at ht
  split at ht
  · rename_i a found
    cases ht
    exact .inl ⟨a, rfl⟩
  · cases ht
    exact .inr (attend_cases n (executed.pc = before.pc) executed)

end Turn

namespace Machine

variable {n : Nat} {p q : Processor} {ts : List Turn}

/-- Whether a run stops at its frames. -/
def AtFrames (r : Except Fault Report) : Prop := ∃ report k, r = .ok report ∧ report.stop = .framesRendered k

/-- Whether a run stops at a breakpoint where the frames were drawn that it should draw. -/
def PastFrames (n : Nat) (r : Except Fault Report) : Prop :=
  ∃ report a, r = .ok report ∧ report.stop = .breakpoint a ∧ n ≤ report.frames

theorem not_atFrames {r : Except Fault Report} {report : Report} (ok : r = .ok report)
    (other : ∀ k, report.stop ≠ .framesRendered k) : ¬AtFrames r := by
  rintro ⟨report', k, ok', stop⟩
  cases ok.symm.trans ok'
  exact other k stop

/-! ## Runs -/

/-- **The frames that were drawn behind some turns**, when fewer were drawn before them: the last turn may
have stopped at a breakpoint, or they are still fewer, or they are as many as asked for and the last turn
stopped there. -/
theorem Row.drawn_cases (row : Row (some n) p ts q) (ready : p.Ready (some n))
    (few : framesDrawn p.board < n) :
    (∃ a, ts.getLast?.bind (·.stop) = some (.breakpoint a)) ∨
    (ts.getLast?.bind (·.stop) = none ∧ framesDrawn q.board < n) ∨
    (ts.getLast?.bind (·.stop) = some (.framesRendered n) ∧ framesDrawn q.board = n) := by
  induction row with
  | nil p => exact .inr (.inl ⟨rfl, few⟩)
  | @stop t s of stop =>
    have requests := of.requests ready
    have one := Nat.le_trans requests.frames (Nat.add_le_add_left requests.lines_le _)
    obtain ⟨a, breakpoint⟩ | ⟨none, -⟩ | ⟨rendered, enough⟩ := of.drawn_cases
    · exact .inl ⟨a, breakpoint⟩
    · rw [stop] at none
      cases none
    · have exact : framesDrawn t.after.board = n := by omega
      rw [exact] at rendered
      exact .inr (.inr ⟨rendered, exact⟩)
  | @cons t ts q of none row ih =>
    obtain ⟨a, breakpoint⟩ | ⟨-, few⟩ | ⟨rendered, -⟩ := of.drawn_cases
    · rw [none] at breakpoint
      cases breakpoint
    · have last : (t :: ts).getLast?.bind (·.stop) = ts.getLast?.bind (·.stop) := by
        rw [List.getLast?_cons]
        cases ts.getLast? with
        | none => exact none
        | some u => rfl
      rw [last]
      exact ih (of.settles ready).ready few
    · rw [none] at rendered
      cases rendered

theorem run_frames {m : Machine} {trace : Bool} {report : Report} (ok : (m.run trace).1 = .ok report) :
    report.frames = framesDrawn (m.run trace).2.processor.board := by
  cases outcome : runOn m.frames trace m.maxSteps 0 [] m.processor with
  | ok turns q =>
    obtain ⟨steps, kept, stop⟩ := turns
    obtain ⟨body, ran⟩ := run_of_ok outcome
    rw [ran] at ok ⊢
    cases ok
    rfl
  | error e q =>
    rw [run_of_error outcome] at ok
    cases ok

/-- **What a run comes to** when fewer frames were drawn before it: it stops at a breakpoint too late, or
it goes on below the frames, or it stops at them. -/
theorem run_drawn {m : Machine} (shown : m.frames = some n) (ready : m.processor.Ready (some n))
    (few : framesDrawn m.processor.board < n) (trace : Bool) :
    PastFrames n (m.run trace).1 ∨
    (¬AtFrames (m.run trace).1 ∧ framesDrawn (m.run trace).2.processor.board < n) ∨
    (∃ report, (m.run trace).1 = .ok report ∧ report.stop = .framesRendered n) := by
  obtain ⟨q, row, outcome⟩ := m.run_cases trace
  rw [shown] at row outcome
  have drawn := row.drawn_cases ready few
  obtain ⟨report, body, run, -, -, stop, -⟩ | ⟨e, run, -, unstopped⟩ := outcome
  · have ok : (m.run trace).1 = .ok report := by rw [run]
    have told : report.frames = framesDrawn (m.run trace).2.processor.board := run_frames ok
    have same : framesDrawn (m.run trace).2.processor.board = framesDrawn q.board := by
      rw [run]
      exact (Board.Told.note ..).sameBus.framesDrawn_eq
    obtain ⟨a, breakpoint⟩ | ⟨none, few⟩ | ⟨rendered, -⟩ := drawn
    · rw [breakpoint] at stop
      by_cases past : n ≤ report.frames
      · exact .inl ⟨report, a, ok, stop, past⟩
      · refine .inr (.inl ⟨not_atFrames ok fun k => ?_, ?_⟩)
        · rw [stop]
          exact nofun
        · rw [← told]
          exact Nat.lt_of_not_le past
    · rw [none] at stop
      refine .inr (.inl ⟨not_atFrames ok fun k => ?_, same ▸ few⟩)
      rw [stop]
      exact nofun
    · rw [rendered] at stop
      exact .inr (.inr ⟨report, ok, stop⟩)
  · have error : (m.run trace).1 = .error e := by rw [run]
    obtain ⟨a, breakpoint⟩ | ⟨-, few⟩ | ⟨rendered, -⟩ := drawn
    · rw [unstopped] at breakpoint
      cases breakpoint
    · refine .inr (.inl ⟨?_, ?_⟩)
      · rintro ⟨report, k, ok, -⟩
        cases error.symm.trans ok
      · rw [run]
        exact few
    · rw [unstopped] at rendered
      cases rendered

theorem call_drawn {m : Machine} (shown : m.frames = some n) (ready : m.processor.Ready (some n))
    (few : framesDrawn m.processor.board < n) (c : Call) :
    PastFrames n (m.call c).1 ∨
    (¬AtFrames (m.call c).1 ∧ framesDrawn (m.call c).2.processor.board < n) ∨
    (∃ report, (m.call c).1 = .ok report ∧ report.stop = .framesRendered n) :=
  run_drawn (m := { m with maxSteps := c.maxSteps }) shown ready few c.trace

/-! ## Several runs -/

/-- What several runs come to. -/
def outcomes : Machine → List Call → List (Except Fault Report)
  | _, [] => []
  | m, c :: calls => (m.call c).1 :: (m.call c).2.outcomes calls

/-- **While no run stops at the frames**, fewer than asked for were drawn, unless one stopped at a breakpoint
too late. -/
theorem drawn_lt {m : Machine} (shown : m.frames = some n) (ready : m.processor.Ready (some n))
    (few : framesDrawn m.processor.board < n) {calls : List Call}
    (before : ∀ r ∈ m.outcomes calls, ¬AtFrames r) (inTime : ∀ r ∈ m.outcomes calls, ¬PastFrames n r) :
    framesDrawn (m.afterCalls calls).processor.board < n := by
  induction calls generalizing m with
  | nil => exact few
  | cons c calls ih =>
    obtain ⟨first, rest⟩ := List.forall_mem_cons.mp before
    obtain ⟨first', rest'⟩ := List.forall_mem_cons.mp inTime
    obtain ⟨path, same⟩ := m.call_path c
    rw [shown] at path same
    obtain past | ⟨-, few⟩ | ⟨report, ok, stop⟩ := call_drawn shown ready few c
    · exact absurd past first'
    · exact ih same (path.ready ready).2 few rest rest'
    · exact absurd ⟨report, n, ok, stop⟩ first

theorem lines_deeds {ts : List Turn} (requests : ∀ t ∈ ts, t.Requests) :
    Board.lines (ts.flatMap (·.deeds)) = ts.countP (·.waits) + ts.countP (·.spins) := by
  induction ts with
  | nil => rfl
  | cons t ts ih =>
    obtain ⟨first, rest⟩ := List.forall_mem_cons.mp requests
    rw [List.flatMap_cons, Board.lines_append, ih rest, Turn.lines_deeds, first.instruction, first.spin,
      first.interrupt, List.countP_cons, List.countP_cons]
    omega

/-- **The scan lines and the frames of a machine**, in several runs from its start. The display is asked
for a scan line by each instruction that stores at `WSYNC`, and by each one that spins, once and by
nothing else. So a turn counts one frame at most, and the first run that stops at the frames stops at
exactly as many as asked for, unless an earlier run stopped at a breakpoint where so many or more had
been drawn. -/
theorem scanLines_requested {m : Machine} (fresh : m.Fresh) (shown : m.frames = some n)
    (calls : List Call) :
    (∀ t ∈ m.history calls, t.Requests ∧ Board.lines t.deeds ≤ 1 ∧
      framesDrawn t.after.board ≤ framesDrawn t.before.board + 1) ∧
    Board.lines ((m.history calls).flatMap (·.deeds)) =
      (m.history calls).countP (·.waits) + (m.history calls).countP (·.spins) ∧
    (1 ≤ n → ∀ c report k, ((m.afterCalls calls).call c).1 = .ok report →
      report.stop = .framesRendered k → (∀ r ∈ m.outcomes calls, ¬AtFrames r) →
      k = n ∨ ∃ r ∈ m.outcomes calls, PastFrames n r) := by
  have ready : m.processor.Ready (some n) := shown ▸ fresh.ready
  obtain ⟨path, same⟩ := m.history_path calls
  rw [shown] at path same
  obtain ⟨each, last⟩ := path.ready ready
  have requests (t : Turn) (ht : t ∈ m.history calls) : t.Requests := (each t ht).1.requests (each t ht).2
  refine ⟨fun t ht => ?_, lines_deeds requests, fun asked c report k ok stop before => ?_⟩
  · have frames := (requests t ht).frames
    have one := (requests t ht).lines_le
    exact ⟨requests t ht, one, by omega⟩
  · by_cases late : ∃ r ∈ m.outcomes calls, PastFrames n r
    · exact .inr late
    · have none : framesDrawn m.processor.board < n := by
        rw [fresh.frames]
        exact asked
      have few := drawn_lt shown ready none before fun r hr past => late ⟨r, hr, past⟩
      obtain ⟨report', a, ok', stop', -⟩ | ⟨notYet, -⟩ | ⟨report', ok', stop'⟩ := call_drawn same last few c
      · cases ok.symm.trans ok'
        rw [stop] at stop'
        cases stop'
      · exact absurd ⟨report, k, ok, stop⟩ notYet
      · cases ok.symm.trans ok'
        rw [stop] at stop'
        cases stop'
        exact .inl rfl

/-- A machine that should draw one frame. Both of its instructions draw one, and there is a breakpoint
between them. -/
def overshoot : Machine where
  processor :=
    { table := .ofList [⟨"STA", 0x8D, .absolute, .store .a⟩]
      registers := .initial 0x0600
      board :=
        { memory := program.foldl (fun m w => m.set w.1 w.2) .zero
          hooks := ⟨[(Control.wsync, .waitSync display)]⟩
          displays := #[some (.on (.recorder {}))] }
      breakpoints := ⟨[⟨⟨0⟩, { address := some 0x0603 }, .stop⟩], 1⟩ }
  frames := some 1
  maxSteps := 10
where
  /-- The program, and a display list that ends the frame at once. -/
  program : List (Address × Byte) :=
    [(0x0600, 0x8D), (0x0601, 0x0A), (0x0602, 0xD4), (0x0603, 0x8D), (0x0604, 0x0A), (0x0605, 0xD4),
      (Control.dmactl, 0x22), (Control.dlisth, 0x07), (0x0700, 0x41), (0x0702, 0x07)]

theorem fresh_overshoot : overshoot.Fresh := by
  refine ⟨⟨⟨⟨some (.on (.recorder {})), ⟨rfl, rfl⟩, rfl⟩, fun e he => ?_⟩, rfl, rfl⟩, rfl⟩
  obtain rfl := List.mem_singleton.mp he
  exact ⟨rfl, 0x0603, rfl⟩

/-- Two instructions that store at `WSYNC` ask for two scan lines. -/
theorem scanLines_requested_overshoot :
    overshoot.Fresh ∧ overshoot.frames = some 1 ∧
      Board.lines ((overshoot.history [⟨10, false⟩, ⟨10, true⟩]).flatMap (·.deeds)) = 2 := by
  refine ⟨fresh_overshoot, rfl, ?_⟩
  rw [(scanLines_requested fresh_overshoot rfl [⟨10, false⟩, ⟨10, true⟩]).2.1]
  decide +kernel

/-- The breakpoint comes when enough frames were drawn. The next run is the first one that stops at the
frames, and there is one more by then. -/
theorem frames_pass_at_breakpoint :
    overshoot.Fresh ∧ overshoot.frames = some 1 ∧
      (overshoot.call ⟨10, false⟩).1.toOption.map (fun r => (r.stop, r.frames)) =
        some (.breakpoint 0x0603, 1) ∧
      ((overshoot.afterCalls [⟨10, false⟩]).call ⟨10, false⟩).1.toOption.map
        (fun r => (r.stop, r.frames)) = some (.framesRendered 2, 2) :=
  ⟨fresh_overshoot, rfl, by decide +kernel, by decide +kernel⟩

end Machine

end Atari
