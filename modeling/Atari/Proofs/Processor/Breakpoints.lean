import Atari.Processor.Basic
import Atari.Proofs.Board.Storing

/-!
# Breakpoints

Writing the command pointer changes, besides the pointer, what breakpoints write down.

* `Processor.hits`, `Processor.hitEvents`: the breakpoints that a state hits, and what they write down;
* **`Processor.setPc_journal`**, **`Processor.setPc_stop`**: the records behind a write of the command
  pointer;
* `Processor.stops`: the addresses whose breakpoints ask to stop.
-/

namespace Atari

/-- What a breakpoint that is hit writes into the journal. -/
def Reaction.event? (r : Registers) : Reaction → Option Event
  | record label => some (.breakpoint label r)
  | stop => none

namespace Processor

/-- The reactions of the breakpoints that a state hits, in the order of registration. -/
def hits (p : Processor) : List Reaction := p.breakpoints.called fun k => k.hit p.registers p.memory

/-- What the breakpoints that a state hits write into the journal, in order. -/
def hitEvents (p : Processor) : List Event := p.hits.filterMap (·.event? p.registers)

variable (p : Processor) (a : Address)

/-! ## What breakpoints do to the board -/

section Reactions

variable (reactions : List Reaction) (name : String) (r : Registers) (b : Board)

theorem foldl_reaction : ∃ journal log stop,
    reactions.foldl (fun b reaction => reaction.run name r b) b =
      { b with journal := journal, log := log, stop := stop } := by
  induction reactions generalizing b with
  | nil => exact ⟨b.journal, b.log, b.stop, rfl⟩
  | cons reaction reactions ih =>
    obtain ⟨journal, log, stop, rest⟩ := ih (reaction.run name r b)
    rw [List.foldl_cons, rest]
    cases reaction with
    | record label => exact ⟨journal, log, stop, rfl⟩
    | stop =>
      obtain ⟨log', noted⟩ := b.note_eq .info fun _ => name ++ ": breakpoint at " ++ r.pc.text
      refine ⟨journal, log, stop, ?_⟩
      dsimp only [Reaction.run]
      rw [noted]

theorem journal_foldl_reaction :
    (reactions.foldl (fun b reaction => reaction.run name r b) b).journal =
      (reactions.filterMap (·.event? r)).reverse ++ b.journal := by
  induction reactions generalizing b with
  | nil => rfl
  | cons reaction reactions ih =>
    rw [List.foldl_cons, ih]
    cases reaction with
    | record label => simp [Reaction.run, Reaction.event?, Board.record]
    | stop => simp [Reaction.run, Reaction.event?]

theorem stop_foldl_reaction :
    (reactions.foldl (fun b reaction => reaction.run name r b) b).stop =
      if .stop ∈ reactions then some r.pc else b.stop := by
  induction reactions generalizing b with
  | nil => rfl
  | cons reaction reactions ih =>
    rw [List.foldl_cons, ih]
    cases reaction with
    | record label => simp [Reaction.run, Board.record]
    | stop => simp [Reaction.run]

end Reactions

/-! ## Writing the command pointer -/

/-- Writing the command pointer writes down what happened, and does nothing else. -/
theorem setPc_eq : ∃ journal log stop, p.setPc a =
    { p with
      registers := { p.registers with pc := a }
      board := { p.board with journal := journal, log := log, stop := stop } } := by
  have told (reactions : List Reaction) (level : Level) (body : Unit → String) :
      ∃ journal log stop,
        (reactions.foldl (fun b reaction => reaction.run p.name { p.registers with pc := a } b)
          p.board).note level body =
          { p.board with journal := journal, log := log, stop := stop } := by
    obtain ⟨journal, log, stop, run⟩ :=
      foldl_reaction reactions p.name { p.registers with pc := a } p.board
    obtain ⟨log', noted⟩ :=
      Board.note_eq { p.board with journal := journal, log := log, stop := stop } level body
    exact ⟨journal, log', stop, by rw [run, noted]⟩
  unfold setPc
  dsimp only
  split
  · exact ⟨p.board.journal, p.board.log, p.board.stop, rfl⟩
  · obtain ⟨journal, log, stop, board⟩ := told _ _ _
    exact ⟨journal, log, stop, congrArg
      (fun b : Board => { p with registers := { p.registers with pc := a }, board := b }) board⟩

@[simp] theorem setPc_registers : (p.setPc a).registers = { p.registers with pc := a } := by
  obtain ⟨_, _, _, h⟩ := p.setPc_eq a
  rw [h]

@[simp] theorem setPc_pc : (p.setPc a).pc = a := by
  rw [pc, setPc_registers]

@[simp] theorem setPc_breakpoints : (p.setPc a).breakpoints = p.breakpoints := by
  obtain ⟨_, _, _, h⟩ := p.setPc_eq a
  rw [h]

@[simp] theorem setPc_name : (p.setPc a).name = p.name := by
  obtain ⟨_, _, _, h⟩ := p.setPc_eq a
  rw [h]

@[simp] theorem setPc_table : (p.setPc a).table = p.table := by
  obtain ⟨_, _, _, h⟩ := p.setPc_eq a
  rw [h]

@[simp] theorem setPc_memory : (p.setPc a).memory = p.memory := by
  obtain ⟨_, _, _, h⟩ := p.setPc_eq a
  rw [h]
  rfl

theorem setPc_hooks : (p.setPc a).board.hooks = p.board.hooks := by
  obtain ⟨_, _, _, h⟩ := p.setPc_eq a
  rw [h]

theorem setPc_displays : (p.setPc a).board.displays = p.board.displays := by
  obtain ⟨_, _, _, h⟩ := p.setPc_eq a
  rw [h]

theorem sameBus_setPc : p.board.SameBus (p.setPc a).board :=
  ⟨p.setPc_memory a, p.setPc_hooks a, p.setPc_displays a⟩

theorem setPc_hits : (p.setPc a).hits =
    p.breakpoints.called fun k => k.hit { p.registers with pc := a } p.memory := by
  rw [hits, setPc_registers, setPc_memory, setPc_breakpoints]

/-- **Writing the command pointer writes down the breakpoints that are hit.** -/
theorem setPc_journal : (p.setPc a).board.journal =
    (p.setPc a).hitEvents.reverse ++ p.board.journal := by
  rw [hitEvents, setPc_hits, setPc_registers]
  unfold setPc
  dsimp only
  split
  · rename_i none
    rw [show p.breakpoints.called (fun k => k.hit { p.registers with pc := a } p.memory) = [] from none]
    rfl
  · exact (Board.note_journal ..).trans (journal_foldl_reaction ..)

/-- **Writing the command pointer asks to stop if a breakpoint that is hit does.** -/
theorem setPc_stop : (p.setPc a).board.stop =
    if .stop ∈ (p.setPc a).hits then some a else p.board.stop := by
  rw [setPc_hits]
  unfold setPc
  dsimp only
  split
  · rename_i none
    rw [show p.breakpoints.called (fun k => k.hit { p.registers with pc := a } p.memory) = [] from none]
    rfl
  · exact (Board.note_stop ..).trans (stop_foldl_reaction ..)

/-! ## Breakpoints that stop -/

/-- All breakpoints wait for an address, and ask to stop there. -/
def StopsOnly : Prop :=
  ∀ e ∈ p.breakpoints.entries, e.watcher = .stop ∧ ∃ a, e.parameter = { address := some a }

def stops : List Address := p.breakpoints.entries.filterMap (·.parameter.address)

namespace StopsOnly

variable {p} {a}

theorem stop_mem_called (h : p.StopsOnly) {r : Registers} {m : Memory} :
    .stop ∈ p.breakpoints.called (fun k => k.hit r m) ↔ r.pc ∈ p.stops := by
  unfold Delegate.called stops
  rw [List.mem_map, List.mem_filterMap]
  constructor
  · rintro ⟨e, hit, -⟩
    obtain ⟨he, hit⟩ := List.mem_filter.mp hit
    obtain ⟨-, b, hb⟩ := h e he
    refine ⟨e, he, ?_⟩
    rw [hb] at hit ⊢
    simpa [Breakpoint.hit] using hit
  · rintro ⟨e, he, address⟩
    obtain ⟨stop, b, hb⟩ := h e he
    refine ⟨e, List.mem_filter.mpr ⟨he, ?_⟩, stop⟩
    rw [hb] at address ⊢
    cases address
    simp [Breakpoint.hit]

/-- **A request to stop waits when the command pointer comes to an address of a breakpoint.** -/
theorem setPc_stop_eq (h : p.StopsOnly) :
    (p.setPc a).board.stop = if a ∈ p.stops then some a else p.board.stop := by
  rw [setPc_stop, setPc_hits]
  simp only [h.stop_mem_called]

end StopsOnly

end Processor

end Atari
