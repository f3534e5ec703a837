import Atari.Proofs.Processor.Hits

/-!
# The log

Everybody writes into the log, and nobody reads it. So processors that differ in their log go on in the same
way.

* `Board.SameButLog`, `Processor.SameButLog`: what differs in the log at most;
* `Execution.EndAlike`: what comes of such processors;
* **`Processor.SameButLog.step`**, `Processor.SameButLog.nonMaskableInterrupt`: a step and an interrupt.
-/

namespace Atari

namespace Board

/-- Boards that differ in their log at most. -/
def SameButLog (b c : Board) : Prop := ∃ log, c = { b with log := log }

variable {b c : Board}

theorem SameButLog.note (h : b.SameButLog c) (level : Level) (body : Unit → String) :
    (b.note level body).SameButLog (c.note level body) := by
  obtain ⟨log, rfl⟩ := h
  obtain ⟨_, noted⟩ := b.note_eq level body
  obtain ⟨log', noted'⟩ := Board.note_eq { b with log := log } level body
  exact ⟨log', by rw [noted, noted']⟩

theorem indiscernible_sameButLog : Indiscernible SameButLog where
  same r := by
    obtain ⟨log, rfl⟩ := r
    exact ⟨rfl, rfl, rfl⟩
  note r := r.note
  record r e := by
    obtain ⟨log, rfl⟩ := r
    exact ⟨log, rfl⟩
  memory r m := by
    obtain ⟨log, rfl⟩ := r
    exact ⟨log, rfl⟩
  hooks r h := by
    obtain ⟨log, rfl⟩ := r
    exact ⟨log, rfl⟩
  displays r ds := by
    obtain ⟨log, rfl⟩ := r
    exact ⟨log, rfl⟩
  overrun r := by
    obtain ⟨log, rfl⟩ := r
    exact ⟨log, rfl⟩

theorem SameButLog.reaction (h : b.SameButLog c) (reaction : Reaction) (name : String) (r : Registers) :
    (reaction.run name r b).SameButLog (reaction.run name r c) := by
  cases reaction with
  | record label => exact indiscernible_sameButLog.record h _
  | stop =>
    obtain ⟨log, noted⟩ := h.note .info fun _ => name ++ ": breakpoint at " ++ r.pc.text
    refine ⟨log, ?_⟩
    unfold Reaction.run
    dsimp only
    rw [noted]

end Board

namespace Processor

/-- Processors that differ in their log at most. -/
def SameButLog (p q : Processor) : Prop := ∃ log, q = { p with board := { p.board with log := log } }

namespace SameButLog

variable {p q r : Processor}

theorem refl (p : Processor) : p.SameButLog p := ⟨p.board.log, rfl⟩

theorem symm (h : p.SameButLog q) : q.SameButLog p := by
  obtain ⟨log, rfl⟩ := h
  exact ⟨p.board.log, rfl⟩

theorem trans (h : p.SameButLog q) (k : q.SameButLog r) : p.SameButLog r := by
  obtain ⟨_, rfl⟩ := h
  obtain ⟨log, rfl⟩ := k
  exact ⟨log, rfl⟩

theorem noted (p : Processor) (level : Level) (body : Unit → String) :
    p.SameButLog (p.onBoard (·.note level body)) := by
  obtain ⟨log, noted⟩ := p.board.note_eq level body
  exact ⟨log, congrArg (fun b => { p with board := b }) noted⟩

variable (h : p.SameButLog q)

include h

theorem registers : q.registers = p.registers := by
  obtain ⟨log, rfl⟩ := h
  rfl

theorem board : p.board.SameButLog q.board := by
  obtain ⟨log, rfl⟩ := h
  exact ⟨log, rfl⟩

theorem onBoard {f g : Board → Board} (hf : (f p.board).SameButLog (g q.board)) :
    (p.onBoard f).SameButLog (q.onBoard g) := by
  obtain ⟨log, changed⟩ := hf
  obtain ⟨_, rfl⟩ := h
  exact ⟨log, congrArg (fun b => { p with board := b }) changed⟩

theorem note (level : Level) (body : Unit → String) :
    (p.onBoard (·.note level body)).SameButLog (q.onBoard (·.note level body)) :=
  h.onBoard (h.board.note level body)

/-- The breakpoints that are hit write into the log and go by everything else. -/
theorem setPc (a : Address) : (p.setPc a).SameButLog (q.setPc a) := by
  have reacted (reactions : List Reaction) (name : String) (r : Registers) {b c : Board}
      (same : b.SameButLog c) : (reactions.foldl (fun b reaction => reaction.run name r b) b).SameButLog
        (reactions.foldl (fun b reaction => reaction.run name r b) c) := by
    induction reactions generalizing b c with
    | nil => exact same
    | cons reaction reactions ih => exact ih (same.reaction reaction name r)
  obtain ⟨log, rfl⟩ := h
  have moved : SameButLog { p with registers := { p.registers with pc := a } }
      { p with registers := { p.registers with pc := a }, board := { p.board with log := log } } :=
    ⟨log, rfl⟩
  -- Both processors hit the same breakpoints.
  unfold Processor.setPc
  dsimp only
  split
  · rename_i none
    split
    · exact moved
    · exact absurd none ‹_›
  · rename_i some
    split
    · exact absurd ‹_› some
    · exact moved.onBoard ((reacted _ _ _ moved.board).note ..)

end SameButLog

end Processor

/-! ## Steps -/

namespace Execution

/-- What comes of processors that differ in their log at most: the same, but for the log. -/
inductive EndAlike {α : Type} : (x y : EStateM.Result Fault Processor α) → Prop
  | ok {v : α} {p q : Processor} : p.SameButLog q → EndAlike (.ok v p) (.ok v q)
  | error {e : Fault} {p q : Processor} : p.SameButLog q → EndAlike (.error e p) (.error e q)

theorem EndAlike.cases {α : Type} {x y : EStateM.Result Fault Processor α} (h : EndAlike x y) :
    (∃ v p q, x = .ok v p ∧ y = .ok v q ∧ p.SameButLog q) ∨
      ∃ e p q, x = .error e p ∧ y = .error e q ∧ p.SameButLog q := by
  cases h with
  | ok alike => exact .inl ⟨_, _, _, rfl, rfl, alike⟩
  | error alike => exact .inr ⟨_, _, _, rfl, rfl, alike⟩

end Execution

namespace Processor.SameButLog

open Execution

variable {p q : Processor} (h : p.SameButLog q)

include h

/-- **A step does not see the log.** -/
theorem step : EndAlike p.step q.step := by
  obtain ⟨log, rfl⟩ := h
  cases hs : p.step with
  | error e p' =>
    obtain ⟨rfl, fails⟩ := step_failsFirst p { p with board := { p.board with log := log } } p' e
      ⟨rfl, rfl, rfl, rfl⟩ hs
    rw [fails]
    exact .error ⟨log, rfl⟩
  | ok l p' =>
    obtain ⟨r, goes, rfl⟩ := step_ok_watched hs
    -- The other processor is the same one with other records.
    have other := goes p.breakpoints { p.board.records with log := log }
    show EndAlike _ (step (p.unwatched.watched p.breakpoints { p.board.records with log := log }))
    rw [other]
    have alike : SameButLog (r.watched p.breakpoints p.board.records)
        (r.watched p.breakpoints { p.board.records with log := log }) := ⟨r.board.log ++ log, rfl⟩
    exact .ok ((alike.setPc _).note .trace _)

theorem nonMaskableInterrupt : p.nonMaskableInterrupt.SameButLog q.nonMaskableInterrupt := by
  obtain ⟨log, rfl⟩ := h
  obtain ⟨r, enters⟩ := p.unwatched.enterInterrupt_watched p.pc false nmiVector
  have alike : SameButLog (r.watched p.breakpoints p.board.records)
      (r.watched p.breakpoints { p.board.records with log := log }) := ⟨r.board.log ++ log, rfl⟩
  show SameButLog ((p.unwatched.watched p.breakpoints p.board.records).enterInterrupt p.pc false nmiVector)
    ((p.unwatched.watched p.breakpoints { p.board.records with log := log }).enterInterrupt p.pc false
      nmiVector)
  rw [enters, enters]
  exact alike.setPc _

end Processor.SameButLog

end Atari
