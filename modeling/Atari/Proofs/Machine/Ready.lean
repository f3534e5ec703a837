import Atari.Proofs.Machine.Wiring
import Atari.Proofs.Processor.Breakpoints
import Atari.Proofs.Processor.Writes

/-!
# Processors in a machine

Whatever a machine does to its processor keeps the wiring of its board, and changes two things that
wait there: an interrupt at the display, and a request to stop.

* `Processor.Ready`: a processor that a machine can run;
* `Processor.Comes`: what waits when the command pointer was written last;
* **`Processor.Ready.step`**, **`Processor.Ready.nonMaskableInterrupt`**: instructions and interrupts;
* `Processor.Ready.drawLine`: scan lines that the machine draws.
-/

namespace Atari

open Machine (drawLine)

namespace Board

variable {b c : Board} {d? : Option Display}

theorem Wired.told (h : b.Wired d?) (told : b.Told c) :
    c.Wired d? ∧ c.stop = b.stop ∧ c.request? = b.request? := by
  obtain ⟨journal, log, rfl⟩ := told
  have wired : Wired { b with journal := journal, log := log } d? := h.of_eq rfl rfl
  exact ⟨wired, rfl, wired.request_eq.trans h.request_eq.symm⟩

end Board

/-! ## Processors in a machine -/

namespace Processor

variable {frames : Option Nat} {p q r : Processor} {a : Address} {writes : List (Address × Byte)}

/-- A processor that a machine can run: its board is wired, and its breakpoints ask to stop. -/
structure Ready (frames : Option Nat) (p : Processor) : Prop where
  board : ∃ d? : Option Display, p.board.Wired d? ∧ d?.isSome = frames.isSome
  stopsOnly : p.StopsOnly

theorem Ready.emptied (h : p.Ready frames) : (p.onBoard Board.emptied).Ready frames ∧
    (p.onBoard Board.emptied).board.stop = p.board.stop ∧
      (p.onBoard Board.emptied).board.request? = none := by
  obtain ⟨d?, wired, shown⟩ := h.board
  refine ⟨⟨⟨_, wired.emptied, ?_⟩, h.stopsOnly⟩, wired.stop_emptied, wired.request_emptied⟩
  rw [Option.isSome_map, shown]

theorem Ready.note (h : p.Ready frames) (level : Level) (body : Unit → String) :
    (p.onBoard (·.note level body)).Ready frames := by
  obtain ⟨d?, wired, shown⟩ := h.board
  exact ⟨⟨d?, (wired.told (.note ..)).1, shown⟩, h.stopsOnly⟩

theorem Ready.request_note (h : p.Ready frames) (level : Level) (body : Unit → String) :
    (p.onBoard (·.note level body)).board.request? = p.board.request? := by
  obtain ⟨d?, wired, shown⟩ := h.board
  exact (wired.told (.note ..)).2.2

theorem onStack_ne_wsync {a : Address} (h : OnStack a) : a ≠ Control.wsync := by
  obtain ⟨sp, rfl⟩ := h
  intro e
  have slot : (stackSlot sp).toNat < 2 ^ 9 := by
    rw [stackSlot, UInt16.toNat_or, UInt8.toNat_toUInt16]
    exact Nat.or_lt_two_pow (by decide) (Nat.lt_trans sp.toNat_lt (by decide))
  rw [e] at slot
  exact absurd slot (by decide)

/-- A ready processor whose command pointer was written last: `waiting` waits at its display, and a
breakpoint at the command pointer asks to stop. -/
structure Comes (frames : Option Nat) (p q : Processor) (waiting : Option InterruptSource) : Prop where
  ready : q.Ready frames
  breakpoints : q.breakpoints = p.breakpoints
  request : q.board.request? = waiting
  stop : q.board.stop = if q.pc ∈ p.stops then some q.pc else p.board.stop

/-- **Stores and a new command pointer leave a processor ready.** The interrupt that waits behind them
is the last one that the stores asked for, or else the one that waited before. -/
theorem Follows.comes (f : p.Follows r writes) (h : p.Ready frames) (a : Address) :
    Comes frames p (r.setPc a) ((p.board.askedByStores writes).getLast?.or p.board.request?) := by
  obtain ⟨d?, wired, shown⟩ := h.board
  obtain ⟨⟨e?, stored, shown'⟩, stop, request⟩ := wired.storeList writes
  obtain ⟨told, stop', request'⟩ := stored.told f.board
  have moved : (r.setPc a).board.Wired e? := told.of_eq (r.setPc_hooks a) (r.setPc_displays a)
  have stopsOnly : r.StopsOnly := by
    unfold StopsOnly
    rw [f.breakpoints]
    exact h.stopsOnly
  have same : r.stops = p.stops := by rw [stops, stops, f.breakpoints]
  refine ⟨⟨⟨e?, moved, shown'.trans shown⟩, ?_⟩, (r.setPc_breakpoints a).trans f.breakpoints, ?_, ?_⟩
  · unfold StopsOnly
    rw [setPc_breakpoints]
    exact stopsOnly
  · rw [moved.request_eq, ← told.request_eq, request', request]
  · rw [stopsOnly.setPc_stop_eq, setPc_pc, same, stop', stop]

theorem Comes.note {waiting : Option InterruptSource} (h : Comes frames p q waiting) (level : Level)
    (body : Unit → String) : Comes frames p (q.onBoard (·.note level body)) waiting :=
  ⟨h.ready.note .., h.breakpoints, (h.ready.request_note ..).trans h.request,
    (Board.note_stop ..).trans h.stop⟩

/-- **A step** stores, and then writes the command pointer. -/
theorem Ready.step {l : LogLine} (h : p.Ready frames) (hs : p.step = .ok l q) :
    Comes frames p q
      ((p.board.askedByStores (p.fetch.writes p)).getLast?.or p.board.request?) := by
  obtain ⟨r, a, follows, rfl, -⟩ := step_cases hs
  exact (follows.comes h a).note ..

/-- **A non maskable interrupt** stores on the stack, and then writes the command pointer. -/
theorem Ready.nonMaskableInterrupt (h : p.Ready frames) :
    Comes frames p p.nonMaskableInterrupt p.board.request? := by
  obtain ⟨r, a, follows, he⟩ := enterInterrupt_cases p p.pc false nmiVector
  obtain ⟨d?, wired, -⟩ := h.board
  have idle : p.board.askedByStores (p.interruptWrites p.pc false) = [] :=
    wired.askedByStores_eq_nil fun w hw => onStack_ne_wsync (onStack_of_mem_pushes hw)
  have comes := follows.comes h a
  rw [idle] at comes
  unfold Processor.nonMaskableInterrupt
  rw [he]
  exact comes

theorem Ready.drawLine (h : p.Ready frames) :
    (drawLine p).Ready frames ∧ (drawLine p).board.stop = p.board.stop ∧
      (drawLine p).board.request? = (p.board.asked Board.spun).getLast?.or p.board.request? := by
  obtain ⟨d?, wired, shown⟩ := h.board
  obtain ⟨⟨e?, wired', shown'⟩, stop, request⟩ := wired.spun
  refine ⟨⟨⟨e?, wired', shown'.trans shown⟩, h.stopsOnly⟩, stop, ?_⟩
  refine request.trans ?_
  unfold Board.asked
  cases p.board.emptied.spun.request? <;> rfl

end Processor

end Atari
