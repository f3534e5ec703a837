import Atari.Proofs.Board.Deeds
import Atari.Proofs.Board.Records
import Atari.Proofs.Machine.Interrupts

/-!
# The scan lines of a machine

A display draws a scan line when a byte is stored at `WSYNC`, and when the machine spins. Both happen to
an instruction at most once, and not both of them. What the display stores meanwhile, and what an
interrupt stores, asks for no more.

* `Board.lines`: the scan lines that are asked for; **`Board.Wired.lines_listDeeds`**: those that stores
  ask for;
* `Turn.deeds`: what happens during a turn, with its three parts;
* **`Turn.Of.requests`**: the scan lines of a turn.
-/

namespace Atari

open Machine (display drawLine framesDrawn)

/-- Whether a display is asked for a scan line, and draws it. -/
def Deed.isDrawn : Deed → Bool
  | drawn _ => true
  | stored .. | called .. | returned | attached .. | cleared _ => false

namespace Board

/-- The number of scan lines that displays were asked for. -/
def lines (deeds : List Deed) : Nat := deeds.countP (·.isDrawn)

@[simp] theorem lines_nil : lines [] = 0 := rfl

@[simp] theorem lines_cons (deed : Deed) (deeds : List Deed) :
    lines (deed :: deeds) = lines deeds + if deed.isDrawn then 1 else 0 := List.countP_cons ..

@[simp] theorem lines_append (deeds others : List Deed) :
    lines (deeds ++ others) = lines deeds + lines others := List.countP_append ..

variable {b c : Board} {d? : Option Display} {d : Display}

/-- The registers of the coprocessor have no hooks, so a program that stores there asks for no scan line. -/
theorem lines_deeds_own {α : Type} {P : α → Prop} {x : Program α} (h : x.DoesOwn P) (depth : Nat)
    (free : ∀ a ∈ Antic.registers, b.hooks.on a = []) :
    lines (x.deeds (storeWithin depth) (deedsWithin depth) b) = 0 := by
  induction x generalizing b with
  | done x => rfl
  | look rest ih => exact ih b.memory (h b.memory) free
  | note level body rest ih =>
    refine ih h fun a ha => ?_
    rw [note_hooks]
    exact free a ha
  | store a v rest ih =>
    have on := free a h.1
    rw [Program.deeds, lines_append, deedsWithin_of_on_eq_nil on, storeWithin_of_on_eq_nil on]
    have rest := ih (b := b.setByte a v) h.2 free
    simp [rest, Deed.isDrawn]

namespace Wired

theorem registers_free (h : b.Wired d?) : ∀ a ∈ Antic.registers, b.hooks.on a = [] := by
  intro a ha
  refine h.on_eq_nil fun e => ?_
  rw [e] at ha
  exact absurd ha (by decide)

theorem lines_lineDeeds (h : b.Wired (some d)) :
    lines (b.lineDeeds Board.store (deedsWithin nesting) display) = 1 := by
  have drawing := lines_deeds_own (b := b.lend display) (Program.does_scanLine d.antic) nesting
    h.registers_free
  unfold Board.lineDeeds
  rw [h.display_eq]
  dsimp only
  rw [lines_cons]
  exact congrArg (· + 1) drawing

theorem lines_deedsWithin_wsync (h : b.Wired (some d)) (depth : Nat) (v : Byte) :
    lines (deedsWithin (depth + 1) b Control.wsync v) = 1 := by
  have on : b.hooks.on Control.wsync = [.waitSync display] := by
    unfold Hooks.on
    rw [h.hooks]
    rfl
  have drawing := lines_deeds_own (Program.does_scanLine d.antic) depth
    fun a _ => hooked_on h v a
  have shown : display? { b.setByte Control.wsync v with hooks := b.hooks.detach Control.wsync }
      display = some d := h.display_eq
  rw [deedsWithin, on, callDeeds, callDeeds, Hook.deeds, lineDeeds, shown]
  unfold hooked at drawing
  simp [Deed.isDrawn, drawing]

/-- **A store asks for a scan line** when it is at `WSYNC`. -/
theorem lines_deeds (h : b.Wired (some d)) (a : Address) (v : Byte) :
    lines (deedsWithin nesting b a v) = if a = Control.wsync then 1 else 0 := by
  by_cases ha : a = Control.wsync
  · rw [if_pos ha, ha]
    exact h.lines_deedsWithin_wsync 65535 v
  · rw [if_neg ha, deedsWithin_of_on_eq_nil (h.on_eq_nil fun e => absurd e ha)]
    rfl

theorem store_some (h : b.Wired (some d)) (a : Address) (v : Byte) :
    ∃ e, (b.store a v).Wired (some e) ∧
      e.antic.frames ≤ d.antic.frames + if a = Control.wsync then 1 else 0 := by
  by_cases ha : a = Control.wsync
  · subst ha
    refine ⟨_, (h.store_wsync v).1, ?_⟩
    have counts := Antic.frames_scanLine d.antic (hooked b v) Board.setByte
    show (d.antic.scanLine Board.setByte (hooked b v)).2.1.frames ≤ _
    rw [counts, if_pos rfl]
    split <;> omega
  · exact ⟨d, (h.store_plain (fun e => absurd e ha) v).1, Nat.le_add_right ..⟩

/-- **Stores ask for as many scan lines** as there are stores at `WSYNC`. -/
theorem lines_listDeeds (h : b.Wired (some d)) (writes : List (Address × Byte)) :
    lines (b.listDeeds writes) = writes.countP (·.1 = Control.wsync) := by
  induction writes generalizing b d with
  | nil => rfl
  | cons w writes ih =>
    obtain ⟨e, stored, -⟩ := h.store_some w.1 w.2
    rw [listDeeds, lines_append, h.lines_deeds, ih stored, List.countP_cons]
    simp [Nat.add_comm]

theorem framesDrawn_eq (h : b.Wired (some d)) : framesDrawn b = d.antic.frames := by
  unfold framesDrawn
  rw [h.display_eq]
  rfl

theorem framesDrawn_storeList_le (h : b.Wired (some d)) (writes : List (Address × Byte)) :
    framesDrawn (b.storeList writes) ≤ framesDrawn b + writes.countP (·.1 = Control.wsync) := by
  induction writes generalizing b d with
  | nil => exact Nat.le_refl _
  | cons w writes ih =>
    obtain ⟨e, stored, frames⟩ := h.store_some w.1 w.2
    have rest := ih stored
    rw [storeList_cons, List.countP_cons]
    rw [stored.framesDrawn_eq] at rest
    rw [h.framesDrawn_eq]
    simp only [decide_eq_true_eq]
    omega

theorem framesDrawn_spun_le (h : b.Wired (some d)) : framesDrawn b.spun ≤ framesDrawn b + 1 := by
  have counts := Antic.frames_scanLine d.antic (b.lend display) Board.setByte
  rw [h.spun_wired.1.framesDrawn_eq, h.framesDrawn_eq]
  show (d.antic.scanLine Board.setByte (b.lend display)).2.1.frames ≤ _
  rw [counts]
  split <;> omega

theorem framesDrawn_emptied (h : b.Wired (some d)) : framesDrawn b.emptied = framesDrawn b := by
  rw [h.emptied.framesDrawn_eq, h.framesDrawn_eq]
  rfl

end Wired

theorem SameBus.framesDrawn_eq (h : b.SameBus c) : framesDrawn c = framesDrawn b := by
  unfold framesDrawn display?
  rw [h.displays]

end Board

/-! ## Turns -/

namespace Turn

/-- Whether the instruction of a turn stores at `WSYNC`, which waits for a scan line. -/
def waits (t : Turn) : Bool := (t.before.fetch.writes t.before).any (·.1 = Control.wsync)

/-- What happens while the instruction of a turn stores. -/
def instructionDeeds (t : Turn) : List Deed :=
  t.before.board.listDeeds (t.before.fetch.writes t.before)

def spinDeeds (t : Turn) : List Deed :=
  if t.spins then t.executed.board.lineDeeds Board.store (Board.deedsWithin Board.nesting) display else []

/-- The board behind what the interrupts of a turn store. -/
def interruptedBoard (t : Turn) : Board :=
  t.entered.foldl (fun b _ => b.storeList (t.shown.interruptWrites t.shown.pc false)) t.shown.board.emptied

/-- What happens while a turn enters interrupts. -/
def interruptDeeds (t : Turn) : List Deed :=
  t.entered.flatMap fun _ => t.shown.board.emptied.listDeeds (t.shown.interruptWrites t.shown.pc false)

/-- What happens during a turn. -/
def deeds (t : Turn) : List Deed := t.instructionDeeds ++ t.spinDeeds ++ t.interruptDeeds

/-- What a turn does: its instruction stores bytes, the machine may draw a scan line, and the interrupts
that are entered store bytes. The display is asked for a scan line when the instruction stores at `WSYNC`,
and when the turn spins. -/
structure Requests (t : Turn) : Prop where
  executed : (t.before.board.storeList (t.before.fetch.writes t.before)).SameBus t.executed.board
  after : t.after =
    if t.atBreakpoint then t.executed.onBoard fun b => { b with stop := none }
    else t.entered.foldl interrupted (t.shown.onBoard Board.emptied)
  entered : ¬t.atBreakpoint = true → t.interruptedBoard.SameBus t.after.board
  instruction : Board.lines t.instructionDeeds = if t.waits then 1 else 0
  spin : Board.lines t.spinDeeds = if t.spins then 1 else 0
  interrupt : Board.lines t.interruptDeeds = 0
  once : t.waits = true → t.spins = false
  frames : framesDrawn t.after.board ≤ framesDrawn t.before.board + Board.lines t.deeds

variable {frames : Option Nat} {t : Turn} {p : Processor} {n : Nat}

theorem lines_deeds (t : Turn) : Board.lines t.deeds =
    Board.lines t.instructionDeeds + Board.lines t.spinDeeds + Board.lines t.interruptDeeds := by
  unfold deeds
  rw [Board.lines_append, Board.lines_append]

theorem Requests.lines_le (h : t.Requests) : Board.lines t.deeds ≤ 1 := by
  rw [lines_deeds, h.instruction, h.spin, h.interrupt]
  cases waits : t.waits with
  | true => simp [h.once waits]
  | false => cases t.spins <;> simp

theorem countP_writes (t : Turn) :
    (t.before.fetch.writes t.before).countP (·.1 = Control.wsync) = if t.waits then 1 else 0 := by
  unfold waits
  obtain stack | ⟨w, single⟩ := t.before.fetch.writes_cases t.before
  · have apart : ∀ w ∈ t.before.fetch.writes t.before, ¬w.1 = Control.wsync :=
      fun w hw => Processor.onStack_ne_wsync (stack w hw)
    have none : ¬(t.before.fetch.writes t.before).any (·.1 = Control.wsync) = true := by
      intro found
      obtain ⟨w, hw, e⟩ := List.any_eq_true.mp found
      exact apart w hw (of_decide_eq_true e)
    rw [if_neg none, List.countP_eq_zero]
    intro w hw
    simpa using apart w hw
  · rw [single]
    simp [List.countP_cons]

theorem countP_interruptWrites (p : Processor) (a : Address) (brk : Bool) :
    (p.interruptWrites a brk).countP (·.1 = Control.wsync) = 0 := by
  refine List.countP_eq_zero.mpr fun w hw => ?_
  simpa using Processor.onStack_ne_wsync (Processor.onStack_of_mem_pushes hw)

theorem interrupted_sameBus (p : Processor) (source : InterruptSource) :
    (p.board.storeList (p.interruptWrites p.pc false)).SameBus (interrupted p source).board := by
  have told : p.board.Told (p.board.note .debug fun _ => p.name ++ ": " ++ source.name ++ " interrupt") :=
    .note ..
  obtain ⟨r, a, follows, he⟩ := Processor.enterInterrupt_cases
    (p.onBoard (·.note .debug fun _ => p.name ++ ": " ++ source.name ++ " interrupt")) p.pc false
    Processor.nmiVector
  have entered : interrupted p source = r.setPc a := he
  rw [entered]
  exact ((told.storeList _).sameBus.trans follows.board.sameBus).trans (r.sameBus_setPc a)

theorem ready_some (h : p.Ready (some n)) : ∃ d, p.board.Wired (some d) := by
  obtain ⟨d?, wired, shown⟩ := h.board
  obtain ⟨d, rfl⟩ := Option.isSome_iff_exists.mp (shown.trans Option.isSome_some)
  exact ⟨d, wired⟩

theorem Of.not_spins (h : t.Of frames) (waits : t.waits = true) : t.spins = false := by
  obtain ⟨r, a, -, he, stays⟩ := Processor.step_cases h.step
  refine Bool.eq_false_iff.mpr fun spins => ?_
  have same : t.executed.pc = t.before.pc := by
    unfold Turn.spins at spins
    exact of_decide_eq_true (Bool.and_eq_true_iff.mp spins).1
  have moved : t.executed.pc = a := by
    rw [he]
    exact Processor.setPc_pc r a
  obtain ⟨w, hw, at_⟩ := List.any_eq_true.mp waits
  exact Processor.onStack_ne_wsync (stays (moved.symm.trans same) w hw) (of_decide_eq_true at_)

/-! ### Frames -/

theorem Of.executed_sameBus (h : t.Of frames) :
    (t.before.board.storeList (t.before.fetch.writes t.before)).SameBus t.executed.board :=
  Processor.step_sameBus h.step

theorem Of.framesDrawn_executed_le (h : t.Of (some n)) (ready : t.before.Ready (some n)) :
    framesDrawn t.executed.board ≤ framesDrawn t.before.board + if t.waits then 1 else 0 := by
  obtain ⟨d, wired⟩ := ready_some ready
  have stored := wired.framesDrawn_storeList_le (t.before.fetch.writes t.before)
  rwa [countP_writes, ← h.executed_sameBus.framesDrawn_eq] at stored

theorem Of.framesDrawn_shown_le (h : t.Of (some n)) (ready : t.before.Ready (some n)) :
    framesDrawn t.shown.board ≤ framesDrawn t.executed.board + if t.spins then 1 else 0 := by
  obtain ⟨d, wired⟩ := ready_some (ready.step h.step).ready
  unfold shown
  by_cases spins : t.spins = true
  · rw [if_pos spins, if_pos spins]
    exact wired.framesDrawn_spun_le
  · rw [if_neg spins, if_neg spins]
    exact Nat.le_refl _

theorem Of.entered_sameBus (h : t.Of frames) (ready : t.before.Ready frames)
    (goes : ¬t.atBreakpoint = true) : t.interruptedBoard.SameBus t.after.board := by
  have after := h.after_eq ready
  unfold interruptedBoard
  rw [if_neg goes, entered_of_not_atBreakpoint goes] at after
  rw [after, entered_of_not_atBreakpoint goes]
  -- At most one interrupt waits.
  cases t.shown.board.request? with
  | none => exact .refl _
  | some source => exact interrupted_sameBus (t.shown.onBoard Board.emptied) source

theorem Of.framesDrawn_after_le (h : t.Of (some n)) (ready : t.before.Ready (some n)) :
    framesDrawn t.after.board ≤ framesDrawn t.shown.board := by
  by_cases ends : t.atBreakpoint = true
  · rw [h.after_eq ready, if_pos ends, shown_of_atBreakpoint ends]
    exact Nat.le_refl _
  · obtain ⟨d, wired⟩ := ready_some (h.shown_ready ready).1
    rw [(h.entered_sameBus ready ends).framesDrawn_eq, ← wired.framesDrawn_emptied]
    unfold interruptedBoard
    rw [entered_of_not_atBreakpoint ends]
    cases t.shown.board.request? with
    | none => exact Nat.le_refl _
    | some source =>
      have stored := wired.emptied.framesDrawn_storeList_le (t.shown.interruptWrites t.shown.pc false)
      rwa [countP_interruptWrites] at stored

/-! ### What a turn asks for -/

theorem Of.lines_spinDeeds (h : t.Of (some n)) (ready : t.before.Ready (some n)) :
    Board.lines t.spinDeeds = if t.spins then 1 else 0 := by
  obtain ⟨d, wired⟩ := ready_some (ready.step h.step).ready
  unfold spinDeeds
  by_cases spins : t.spins = true
  · rw [if_pos spins, if_pos spins, wired.lines_lineDeeds]
  · rw [if_neg spins, if_neg spins, Board.lines_nil]

theorem Of.lines_interruptDeeds (h : t.Of (some n)) (ready : t.before.Ready (some n)) :
    Board.lines t.interruptDeeds = 0 := by
  obtain ⟨d, wired⟩ := ready_some (h.shown_ready ready).1
  unfold interruptDeeds
  induction t.entered with
  | nil => rfl
  | cons source entered ih =>
    rw [List.flatMap_cons, Board.lines_append, ih, wired.emptied.lines_listDeeds, countP_interruptWrites]

/-- **What a turn asks the display for.** -/
theorem Of.requests (h : t.Of (some n)) (ready : t.before.Ready (some n)) : t.Requests := by
  obtain ⟨d, wired⟩ := ready_some ready
  have instruction : Board.lines t.instructionDeeds = if t.waits then 1 else 0 :=
    (wired.lines_listDeeds _).trans t.countP_writes
  have spin := h.lines_spinDeeds ready
  have interrupt := h.lines_interruptDeeds ready
  refine ⟨h.executed_sameBus, h.after_eq ready, h.entered_sameBus ready, instruction, spin, interrupt,
    h.not_spins, ?_⟩
  have executed := h.framesDrawn_executed_le ready
  have shown := h.framesDrawn_shown_le ready
  have after := h.framesDrawn_after_le ready
  rw [lines_deeds, instruction, spin, interrupt]
  omega

end Turn

end Atari
